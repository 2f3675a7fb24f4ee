import Cornet.Http.Origins
import Mathlib.Data.List.TakeWhile

/-!
# Http/UrlParts — a url is its parts

    name :// userinfo @ authority   path ? query   # fragment
             └────── full ──────┘   └──────── tail ────────┘

`parse` cuts its text at the first `://`, the first of `/?#`, the last `@`, the first `#` and the
first `?`.  Each cut is an equation between the text and its two sides (`splitFirst_eq_some`, …),
and together they put the text together again from the components that are returned.
-/

namespace Cornet.Http

open List

/-! ## Searching -/

section Searching

variable {b : Byte} {l x y : List Byte}

theorem splitFirst_append (h : b ∉ x) : splitFirst b (x ++ b :: y) = some (x, y) := by
  have hspan : (x ++ b :: y).span (· != b) = (x, b :: y) := by
    rw [span_eq_takeWhile_dropWhile, takeWhile_append_of_pos, dropWhile_append_of_pos]
    · simp
    · exact fun a ha => bne_iff_ne.mpr (ne_of_mem_of_not_mem ha h)
    · exact fun a ha => bne_iff_ne.mpr (ne_of_mem_of_not_mem ha h)
  rw [splitFirst, hspan]

theorem splitFirst_eq_none : splitFirst b l = none ↔ b ∉ l := by
  constructor
  · intro h hb
    obtain ⟨x, y, rfl, hx⟩ := eq_append_cons_of_mem hb
    rw [splitFirst_append hx] at h
    cases h
  · intro h
    have hall : ∀ a ∈ l, (a != b) = true := fun a ha => bne_iff_ne.mpr (ne_of_mem_of_not_mem ha h)
    rw [splitFirst, span_eq_takeWhile_dropWhile, dropWhile_eq_nil_iff.mpr hall]

/-- **`find` cuts at the first occurrence.** -/
theorem splitFirst_eq_some : splitFirst b l = some (x, y) ↔ l = x ++ b :: y ∧ b ∉ x := by
  constructor
  · intro h
    by_cases hb : b ∈ l
    · obtain ⟨x', y', rfl, hx'⟩ := eq_append_cons_of_mem hb
      rw [splitFirst_append hx'] at h
      cases h
      exact ⟨rfl, hx'⟩
    · rw [splitFirst_eq_none.mpr hb] at h
      cases h
  · rintro ⟨rfl, h⟩
    exact splitFirst_append h

/-- **`rfind` cuts at the last occurrence.** -/
theorem splitLast_eq_some : splitLast b l = some (x, y) ↔ l = x ++ b :: y ∧ b ∉ y := by
  rw [splitLast, Option.map_eq_some_iff]
  constructor
  · rintro ⟨⟨x', y'⟩, h, heq⟩
    cases heq
    obtain ⟨hl, hx⟩ := splitFirst_eq_some.mp h
    exact ⟨by simpa using congrArg List.reverse hl, by simpa using hx⟩
  · rintro ⟨rfl, h⟩
    exact ⟨(y.reverse, x.reverse), splitFirst_eq_some.mpr ⟨by simp, by simpa using h⟩, by simp⟩

theorem splitLast_eq_none : splitLast b l = none ↔ b ∉ l := by
  rw [splitLast, Option.map_eq_none_iff, splitFirst_eq_none, mem_reverse]

/-- **`find("://")` cuts at an occurrence.** -/
theorem eq_of_splitScheme : ∀ {l x y : List Byte}, splitScheme l = some (x, y) → l = x ++
    ascii "://" ++ y
  | [], _, _, h => by cases h
  | b :: l, x, y, h => by
      rw [splitScheme] at h
      split at h
      · rename_i htake
        cases h
        have hsplit := (take_append_drop 3 (b :: l)).symm
        rwa [htake] at hsplit
      · rw [Option.map_eq_some_iff] at h
        obtain ⟨⟨x', y'⟩, hsplit, heq⟩ := h
        cases heq
        rw [eq_of_splitScheme hsplit, cons_append, cons_append]

end Searching

namespace Url

variable {raw : List Byte} {u : Url}

/-! ## Cutting -/

/-- The bytes that end an authority. -/
def endsAuthority (b : Byte) : Bool := b ∈ ascii "/?#"

theorem endsAuthority_iff {b : Byte} : endsAuthority b = true ↔ b = 0x2f ∨ b = 0x3f ∨ b = 0x23 := by
  rw [endsAuthority, show ascii "/?#" = [0x2f, 0x3f, 0x23] from rfl]
  simp

/-- Where `parse` cuts its text, and what it makes of the pieces. -/
structure Cut (u : Url) (name full tail : List Byte) (portText : Option (List Byte)) : Prop where
  name_eq : iequals name u.scheme.name = true
  full_plain : ∀ b ∈ full, endsAuthority b = false
  tail_head : ∀ b ∈ tail.head?, endsAuthority b = true
  userinfo : (splitLast 0x40 full).getD ([], full) = (u.userinfo, u.authority)
  target_eq : target tail = (u.path, u.query)
  authority_ne : u.authority ≠ []
  hostPort_eq : hostPort u.authority = .ok (u.host, u.ipv6, portText)
  validHost : validHost u.host = true
  port_eq : portOr u.scheme portText = .ok u.port
  explicitPort : u.explicitPort = portText.isSome

/-- A byte that may stand in a url. -/
def visible (b : Byte) : Bool := !(b ≤ 0x20 || b == 0x7f)

theorem exists_cut_of_parseRest {scheme : Scheme} {name rest : List Byte}
    (hname : iequals name scheme.name = true) (h : parseRest scheme rest = .ok u) :
    ∃ full tail portText, rest = full ++ tail ∧ u.Cut name full tail portText := by
  rw [parseRest, span_eq_takeWhile_dropWhile] at h
  obtain ⟨⟨userinfo, authority⟩, huser⟩ :
      ∃ p, (splitLast 0x40 (rest.takeWhile fun b => b ∉ ascii "/?#")).getD
        ([], rest.takeWhile fun b => b ∉ ascii "/?#") = p := ⟨_, rfl⟩
  obtain ⟨⟨path, query⟩, htarget⟩ : ∃ p, target (rest.dropWhile fun b => b ∉ ascii "/?#") = p :=
    ⟨_, rfl⟩
  simp only [huser, htarget] at h
  split_ifs at h with hne
  split at h
  · cases h
  · rename_i host ipv6 portText hhost
    split_ifs at h with hvalid
    split at h
    · cases h
    · rename_i port hport
      cases h
      refine ⟨rest.takeWhile fun b => b ∉ ascii "/?#", rest.dropWhile fun b => b ∉ ascii "/?#",
        portText,
        takeWhile_append_dropWhile.symm, hname, ?_, ?_, huser, htarget, hne, hhost,
          by simpa using hvalid,
        hport, rfl⟩
      · intro b hb
        simpa [endsAuthority] using mem_takeWhile_imp hb
      · intro b hb
        have hhead := head?_dropWhile_not (fun b => decide (b ∉ ascii "/?#")) rest
        rw [Option.mem_def.mp hb] at hhead
        simpa [endsAuthority] using hhead

theorem scheme_of_parseRest {scheme : Scheme} {rest : List Byte}
    (h : parseRest scheme rest = .ok u) :
    u.scheme = scheme := by
  simp only [parseRest] at h
  split_ifs at h
  split at h
  · cases h
  · split_ifs at h
    split at h <;> cases h
    rfl

theorem not_visible_iff : (raw.any fun b => b ≤ 0x20 || b == 0x7f) = true ↔
    ¬ ∀ b ∈ raw, visible b = true := by
  simp [visible, or_iff_not_imp_left, UInt8.not_le]

/-- What has been parsed is visible, behind one of the two schemes. -/
theorem exists_split_of_parse (h : parse raw = .ok u) : (∀ b ∈ raw, visible b = true) ∧
    ∃ name rest, splitScheme raw = some (name, rest) ∧ iequals name u.scheme.name = true ∧
      parseRest u.scheme rest = .ok u := by
  rw [parse] at h
  split_ifs at h with hany
  refine ⟨not_not.mp (mt not_visible_iff.mpr hany), ?_⟩
  split at h
  · cases h
  · cases h
  · rename_i name rest _ hsplit
    split_ifs at h with hhttp hhttps
    · have hscheme := scheme_of_parseRest h
      exact ⟨name, rest, hsplit, hscheme.symm ▸ hhttp, hscheme.symm ▸ h⟩
    · have hscheme := scheme_of_parseRest h
      exact ⟨name, rest, hsplit, hscheme.symm ▸ hhttps, hscheme.symm ▸ h⟩

/-- **Where a url was cut.** -/
theorem exists_cut (h : parse raw = .ok u) :
    (∀ b ∈ raw, visible b = true) ∧ ∃ name full tail portText,
      raw = name ++ ascii "://" ++ (full ++ tail) ∧ u.Cut name full tail portText := by
  obtain ⟨hvisible, name, rest, hsplit, hname, hrest⟩ := exists_split_of_parse h
  obtain ⟨full, tail, portText, rfl, hcut⟩ := exists_cut_of_parseRest hname hrest
  exact ⟨hvisible, name, full, tail, portText, eq_of_splitScheme hsplit, hcut⟩

/-! ## Putting together -/

variable {name full tail : List Byte} {portText : Option (List Byte)}

/-- A part of a url that may be missing. -/
def part (present : Bool) (text : List Byte) : List Byte := if present then text else []

theorem Cut.full_eq (h : u.Cut name full tail portText) :
    ∃ present, full = part present (u.userinfo ++ [0x40]) ++ u.authority ∧
      (present = false → u.userinfo = []) ∧ (0x40 : Byte) ∉ u.authority := by
  have huser := h.userinfo
  cases hsplit : splitLast 0x40 full with
  | none =>
    rw [hsplit] at huser
    obtain ⟨huser, hfull⟩ := Prod.mk.inj huser
    exact ⟨false, hfull, fun _ => huser.symm, hfull ▸ splitLast_eq_none.mp hsplit⟩
  | some p =>
    rw [hsplit] at huser
    obtain ⟨rfl, hnot⟩ := splitLast_eq_some.mp (hsplit.trans (congrArg some huser))
    exact ⟨true, by simp [part], nofun, hnot⟩

/-- The text behind an authority, from its parts. -/
def tailOf (hasQuery hasFragment : Bool) (path query fragment : List Byte) : List Byte :=
  path ++ part hasQuery (0x3f :: query) ++ part hasFragment (0x23 :: fragment)

/-- **What stands behind an authority** is a path, a query and a fragment. -/
theorem exists_tailOf {path query : List Byte} (h : target tail = (path, query)) :
    ∃ hasQuery hasFragment fragment, tail = tailOf hasQuery hasFragment path query fragment ∧
      (hasQuery = false → query = []) ∧ (0x3f : Byte) ∉ path ∧ (0x23 : Byte) ∉ path := by
  obtain ⟨hasFragment, fragment, htail⟩ : ∃ hasFragment fragment,
      tail = tail.takeWhile (· != 0x23) ++ part hasFragment (0x23 :: fragment) := by
    have hwhole : tail = tail.takeWhile (· != 0x23) ++ tail.dropWhile (· != 0x23) :=
      takeWhile_append_dropWhile.symm
    cases hdrop : tail.dropWhile (· != 0x23) with
    | nil => exact ⟨false, [], by rwa [hdrop] at hwhole⟩
    | cons b fragment =>
      have hhead := head?_dropWhile_not (· != (0x23 : Byte)) tail
      rw [hdrop] at hhead
      obtain rfl : b = 0x23 := by simpa using hhead
      exact ⟨true, fragment, by rwa [hdrop] at hwhole⟩
  have hhash : (0x23 : Byte) ∉ tail.takeWhile (· != 0x23) := fun hmem => by
    simpa using mem_takeWhile_imp hmem
  simp only [target] at h
  cases hsplit : splitFirst 0x3f (tail.takeWhile (· != 0x23)) with
  | none =>
    rw [hsplit] at h
    obtain ⟨hpath, rfl⟩ := Prod.mk.inj h
    refine ⟨false, hasFragment, fragment, ?_, fun _ => rfl, hpath ▸ splitFirst_eq_none.mp hsplit,
      hpath ▸ hhash⟩
    rw [htail, hpath]
    simp [tailOf, part]
  | some r =>
    rw [hsplit] at h
    obtain ⟨hpq, hpath⟩ := splitFirst_eq_some.mp (hsplit.trans (congrArg some h))
    refine ⟨true, hasFragment, fragment, ?_, by rintro ⟨⟩, hpath, fun hmem => hhash ?_⟩
    · rw [htail, hpq]
      simp [tailOf, part]
    · rw [hpq]
      exact mem_append_left _ hmem

theorem Cut.path_head (h : u.Cut name full tail portText) : u.path = [] ∨
    u.path.head? = some 0x2f := by
  obtain ⟨hasQuery, hasFragment, fragment, htail, -, hquestion, hhash⟩ := exists_tailOf h.target_eq
  cases hpath : u.path with
  | nil => exact .inl rfl
  | cons b path =>
    rw [hpath] at htail hquestion hhash
    refine .inr ?_
    rcases endsAuthority_iff.mp (h.tail_head b (by rw [htail]; rfl)) with rfl | rfl | rfl
    · rfl
    · exact absurd mem_cons_self hquestion
    · exact absurd mem_cons_self hhash

/-- **An authority** is a host, in brackets or not, and a port or none. -/
theorem authority_eq {authority host : List Byte} {ipv6 : Bool}
    (h : hostPort authority = .ok (host, ipv6, portText)) :
    authority = (if ipv6 then 0x5b :: host ++ [0x5d] else host) ++ portText.elim []
      (0x3a :: ·) := by
  have bracketed {x y : List Byte} (hhead : authority.head? = some 0x5b)
      (hsplit : splitFirst 0x5d authority = some (x, y)) : authority = 0x5b :: x.tail ++ [0x5d] ++
        y := by
    obtain ⟨rfl, -⟩ := splitFirst_eq_some.mp hsplit
    cases x with
    | nil => cases hhead
    | cons b x => cases hhead; simp
  rw [hostPort] at h
  split_ifs at h with hbracket
  · split at h
    · cases h
    · rename_i hsplit
      cases h
      rw [bracketed hbracket hsplit]
      simp
    · rename_i hsplit
      split_ifs at h with hcolon
      cases h
      rw [bracketed hbracket hsplit, hcolon]
      simp
  · split at h
    · rename_i x y hsplit
      cases h
      obtain ⟨rfl, -⟩ := splitLast_eq_some.mp hsplit
      simp
    · cases h
      simp

/-- **A url and its text.**  `name`, `digits` and `fragment` are not kept; the flags say which
optional parts are there. -/
structure Composes (u : Url) (raw : List Byte) : Prop where
  text : ∃ (name fragment : List Byte) (hasUserinfo hasQuery hasFragment : Bool),
    raw = name ++ ascii "://" ++ part hasUserinfo (u.userinfo ++ ascii "@") ++ u.authority ++
      u.path ++
      part hasQuery (ascii "?" ++ u.query) ++ part hasFragment (ascii "#" ++ fragment) ∧
    SameFold name u.scheme.name ∧ (hasUserinfo = false → u.userinfo = []) ∧
      (hasQuery = false → u.query = [])
  authority : ∃ digits : List Byte,
    u.authority = (if u.ipv6 then ascii "[" ++ u.host ++ ascii "]" else u.host) ++
      part u.explicitPort (ascii ":" ++ digits) ∧
    (u.explicitPort = true → 1 ≤ digits.length ∧ digits.length ≤ 5 ∧ digits.all isDigit = true ∧
      decimal digits = u.port)
  path : u.path = [] ∨ u.path.head? = some 0x2f
  host_ne : u.host ≠ []
  authority_ne : u.authority ≠ []
  visible : ∀ part ∈ [u.userinfo, u.authority, u.host, u.path, u.query], ∀ b ∈ part, 0x20 < b ∧
    b ≠ 0x7f
  host : ∀ b ∈ u.host, b ∉ ascii "/\\?#@"
  port : 1 ≤ u.port ∧ u.port ≤ 65535
  default : u.explicitPort = false → u.port = u.scheme.defaultPort

theorem portOr_eq_ok {scheme : Scheme} {port : ℕ} (h : portOr scheme portText = .ok port) :
    (1 ≤ port ∧ port ≤ 65535) ∧ (portText = none → port = scheme.defaultPort) ∧
      ∀ digits ∈ portText, 1 ≤ digits.length ∧ digits.length ≤ 5 ∧ digits.all isDigit = true ∧
        decimal digits = port := by
  cases portText with
  | none =>
    cases h
    exact ⟨by cases scheme <;> decide, fun _ => rfl, nofun⟩
  | some digits =>
    rw [portOr, parsePort] at h
    split_ifs at h with htext hvalue
    cases h
    simp only [not_or, not_not, not_lt] at htext hvalue
    refine ⟨⟨Nat.one_le_iff_ne_zero.mpr hvalue.1, hvalue.2⟩, nofun, ?_⟩
    rintro _ ⟨⟩
    exact ⟨length_pos_iff.mpr htext.1, htext.2.1, htext.2.2, rfl⟩

theorem letters_scheme (s : Scheme) : ∀ y ∈ s.name, isLetter y = true := by
  cases s <;> decide +kernel

/-- The components are parts of the text. -/
theorem Cut.visible (h : u.Cut name full tail portText)
    (hvisible : ∀ b ∈ name ++ ascii "://" ++ (full ++ tail), Url.visible b = true) :
    ∀ part ∈ [u.userinfo, u.authority, u.host, u.path, u.query], ∀ b ∈ part, 0x20 < b ∧
      b ≠ 0x7f := by
  obtain ⟨hasUserinfo, hfull, huser, -⟩ := h.full_eq
  obtain ⟨hasQuery, hasFragment, fragment, htail, hquery, -⟩ := exists_tailOf h.target_eq
  have hhost : ∀ b ∈ u.host, b ∈ u.authority := by
    intro b hb
    rw [authority_eq h.hostPort_eq]
    split <;> simp [hb]
  have hseen {b : Byte} (hb : b ∈ full ∨ b ∈ tail) : 0x20 < b ∧ b ≠ 0x7f := by
    have := hvisible b (mem_append_right _ (mem_append.mpr hb))
    simpa [Url.visible, UInt8.not_le] using this
  have hauth : ∀ b ∈ u.authority, b ∈ full := fun b hb => hfull ▸ mem_append_right _ hb
  simp only [mem_cons, not_mem_nil, or_false]
  rintro part (rfl | rfl | rfl | rfl | rfl) b hb
  · refine hseen (.inl ?_)
    cases hasUserinfo with
    | false => simp [huser rfl] at hb
    | true => simp [hfull, Url.part, hb]
  · exact hseen (.inl (hauth b hb))
  · exact hseen (.inl (hauth b (hhost b hb)))
  · exact hseen (.inr (by simp [htail, tailOf, hb]))
  · refine hseen (.inr ?_)
    cases hasQuery with
    | false => simp [hquery rfl] at hb
    | true => simp [htail, tailOf, Url.part, hb]

/-- **`parse` decomposes its text.** -/
theorem composes_of_parse (h : parse raw = .ok u) : u.Composes raw := by
  obtain ⟨hvisible, name, full, tail, portText, rfl, hcut⟩ := exists_cut h
  obtain ⟨hasUserinfo, hfull, huser, -⟩ := hcut.full_eq
  obtain ⟨hasQuery, hasFragment, fragment, htail, hquery, -⟩ := exists_tailOf hcut.target_eq
  obtain ⟨hport, hdefault, hdigits⟩ := portOr_eq_ok hcut.port_eq
  have hexplicit := hcut.explicitPort
  have hhost := hcut.validHost
  simp only [Url.validHost, Bool.and_eq_true, bne_iff_ne, ne_eq, all_eq_true] at hhost
  refine ⟨⟨name, fragment, hasUserinfo, hasQuery, hasFragment, ?_,
    sameFold_of_letters (letters_scheme _) hcut.name_eq, huser, hquery⟩, ?_, hcut.path_head,
      hhost.1,
    hcut.authority_ne, hcut.visible hvisible, fun b hb => ?_, hport, fun hnone => hdefault ?_⟩
  · rw [htail, tailOf]
    nth_rewrite 1 [hfull]
    simp only [append_assoc]
    rfl
  · cases portText with
    | none =>
      exact ⟨[], by rw [hexplicit]; exact authority_eq hcut.hostPort_eq, by simp [hexplicit]⟩
    | some digits =>
      exact ⟨digits, by rw [hexplicit]; exact authority_eq hcut.hostPort_eq, fun _ => hdigits digits rfl⟩
  · have hbyte := hhost.2 b hb
    simp only [hostByte, Bool.and_eq_true, decide_eq_true_eq] at hbyte
    exact hbyte.2
  · rw [hexplicit] at hnone
    exact Option.isSome_eq_false_iff.mp hnone |> Option.isNone_iff_eq_none.mp

/-- A url with every part there is. -/
theorem composes_of_parse_full : ∃ u : Url,
    u.Composes (ascii "HTTP://me:p@ss@[::1]:8080/a/b?x=1?#frag") ∧ u.host = ascii "::1" ∧
      u.port = 8080 :=
  ⟨_, composes_of_parse rfl, by decide, by decide⟩

end Url

end Cornet.Http
