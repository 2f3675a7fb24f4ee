import Cornet.Http.Origins
import Cornet.Http.Parser
import Mathlib.Data.List.TakeWhile

/-!
# Http/TokenLists — the tokens of a field, and the one line that is looked at
(`contains_token` in `src/http/common/headers.cc`)

    Transfer-Encoding: gzip              first line       what `get` returns
    Transfer-Encoding: chunked           later lines      not looked at

A field may be sent in several lines, and a token is in the field if it is in one of them.
`contains_token` asks `get`, which returns the first line, and compares with `iequals`.  So it is
right exactly when the first line decides (`FirstDecides`): the token is in it, or a text that looks
like the token is in it just when the token is in a later line.
-/

namespace Cornet.Http

open List

/-! ## One line -/

/-- The elements of a comma-separated list, without the white space around them. -/
def elements (value : List Byte) : List (List Byte) := (value.splitOnP (· == 44)).map trimOws

/-- **The token is in the line.** -/
def InLine (token value : List Byte) : Prop := ∃ e ∈ elements value, SameFold e token

/-- Something that looks like the token is in the line. -/
def LooksInLine (token value : List Byte) : Prop := ∃ e ∈ elements value, Confused e token

instance (token value : List Byte) : Decidable (InLine token value) :=
  inferInstanceAs (Decidable (∃ e ∈ elements value, _ = _))

/-- The loop of `contains_token`, over what is left of the value.  It stops where nothing is left:
the empty piece behind a last comma is not looked at. -/
def tokenLoop (token rest : List Byte) : Bool :=
  if rest = [] then false
  else if iequals (trimOws (rest.takeWhile (· != 44))) token then true
  else if rest.dropWhile (· != 44) = [] then false
  else tokenLoop token (rest.dropWhile (· != 44)).tail
termination_by rest.length
decreasing_by
  have hlen := (dropWhile_sublist (l := rest) (· != 44)).length_le
  have hpos := length_pos_iff.mpr ‹¬ rest = []›
  rw [length_tail]
  omega

theorem hasToken_eq_any (value token : List Byte) : hasToken value token = (elements value).any
    (iequals · token) := by
  rw [hasToken, elements, any_map]
  rfl

theorem elements_of_dropWhile_nil {rest : List Byte} (h : rest.dropWhile (· != 44) = []) :
    elements rest = [trimOws (rest.takeWhile (· != 44))] := by
  have hall : ∀ x ∈ rest, (x == 44) = false := by
    intro x hx
    simpa using dropWhile_eq_nil_iff.mp h x hx
  have htake : rest.takeWhile (· != 44) = rest := by
    simpa [h] using takeWhile_append_dropWhile (p := (· != (44 : Byte))) (l := rest)
  rw [elements, splitOnP_eq_singleton hall, htake]
  rfl

theorem elements_of_dropWhile_cons {rest rest' : List Byte} {c : Byte}
    (h : rest.dropWhile (· != 44) = c :: rest') :
    elements rest = trimOws (rest.takeWhile (· != 44)) :: elements rest' := by
  have hc : (c == 44) = true := by
    have hhead := head?_dropWhile_not (· != (44 : Byte)) rest
    rw [h] at hhead
    simpa using hhead
  have hpiece : ∀ x ∈ rest.takeWhile (· != 44), (x == 44) = false := by
    intro x hx
    simpa using mem_takeWhile_imp hx
  have hsplit := splitOnP_append_cons_of_forall_mem (p := (· == (44 : Byte))) hpiece c hc rest'
  rw [← h, takeWhile_append_dropWhile] at hsplit
  rw [elements, hsplit]
  rfl

/-- **The loop looks at every element.** -/
theorem tokenLoop_eq_hasToken {token : List Byte} (htoken : token ≠ []) (rest : List Byte) :
    tokenLoop token rest = hasToken rest token := by
  have hnil : iequals [] token = false := by
    obtain ⟨b, l, rfl⟩ := exists_cons_of_ne_nil htoken
    rfl
  rw [hasToken_eq_any]
  induction rest using tokenLoop.induct token with
  | case1 =>
    rw [tokenLoop, if_pos rfl]
    exact (by simpa [elements, trimOws] using hnil.symm)
  | case2 rest hrest heq =>
    rw [tokenLoop, if_neg hrest, if_pos heq]
    cases hdrop : rest.dropWhile (· != 44) with
    | nil => rw [elements_of_dropWhile_nil hdrop, any_cons, heq, Bool.true_or]
    | cons c rest' => rw [elements_of_dropWhile_cons hdrop, any_cons, heq, Bool.true_or]
  | case3 rest hrest hne hdrop =>
    rw [tokenLoop, if_neg hrest, if_neg hne, if_pos hdrop, elements_of_dropWhile_nil hdrop,
      any_cons,
      Bool.eq_false_iff.mpr hne]
    rfl
  | case4 rest hrest hne hdrop ih =>
    obtain ⟨c, rest', hcons⟩ := exists_cons_of_ne_nil hdrop
    rw [tokenLoop, if_neg hrest, if_neg hne, if_neg hdrop, ih, elements_of_dropWhile_cons hcons,
      any_cons,
      Bool.eq_false_iff.mpr hne, Bool.false_or, hcons, tail_cons]

theorem hasToken_iff {value token : List Byte} :
    hasToken value token = true ↔ InLine token value ∨ LooksInLine token value := by
  rw [hasToken_eq_any, any_eq_true]
  constructor
  · rintro ⟨e, he, heq⟩
    exact (iequals_iff.mp heq).imp (⟨e, he, ·⟩) (⟨e, he, ·⟩)
  · rintro (⟨e, he, h⟩ | ⟨e, he, h⟩)
    · exact ⟨e, he, iequals_iff.mpr (.inl h)⟩
    · exact ⟨e, he, iequals_iff.mpr (.inr h)⟩

/-! ## All lines -/

namespace Inbound

variable (io : Inbound) (f : Field) (token : List Byte)

/-- The values of the lines of a field in the header section, in order. -/
def linesOf : List (List Byte) := ((io.ofKind false).filter (·.field == f)).map fun h =>
    io.resolve h.value

/-- **The token is in the field**: one of its lines has it. -/
def HasToken : Prop := ∃ v ∈ io.linesOf f, InLine token v

instance : Decidable (io.HasToken f token) :=
  inferInstanceAs (Decidable (∃ v ∈ io.linesOf f, InLine token v))

/-- **The first line decides**: it has the token, or it has something that looks like it just when a
later line has the token. -/
def FirstDecides : Prop :=
  (∃ v ∈ (io.linesOf f).head?, InLine token v) ∨
    ((∃ v ∈ (io.linesOf f).head?, LooksInLine token v) ↔ ∃ v ∈ (io.linesOf f).tail, InLine token v)

variable {io f token}

/-- `get` returns the first line. -/
theorem get_eq_head (hf : f ≠ .other) : io.get f = (io.linesOf f).head?.getD [] := by
  have hfind : (io.linesOf f).head? = ((io.ofKind false).find? (·.field == f)).map fun h =>
    io.resolve h.value := by
    rw [linesOf, head?_map, head?_filter]
  rw [hfind, get, has, bne_iff_ne.mpr hf, Bool.true_and]
  split_ifs with hany
  · rfl
  · rw [find?_eq_none.mpr (by simpa using hany)]
    rfl

/-- Nothing is in an empty line. -/
theorem hasToken_nil (htoken : token ≠ []) : hasToken [] token = false := by
  obtain ⟨b, l, rfl⟩ := exists_cons_of_ne_nil htoken
  rfl

theorem containsToken_iff (hf : f ≠ .other) (htoken : token ≠ []) :
    io.containsToken f token = true ↔
      ∃ v ∈ (io.linesOf f).head?, InLine token v ∨ LooksInLine token v := by
  have hvalue : io.containsToken f token = hasToken (io.get f) token := by
    rw [containsToken]
    by_cases hnil : io.get f = []
    · rw [hnil, hasToken_nil htoken]
      rfl
    · simp [hnil]
  rw [hvalue, get_eq_head hf]
  cases (io.linesOf f).head? with
  | none => simp [hasToken_nil htoken]
  | some v => simp [hasToken_iff]

theorem hasToken_iff_head_or_tail :
    io.HasToken f token ↔
      (∃ v ∈ (io.linesOf f).head?, InLine token v) ∨ ∃ v ∈ (io.linesOf f).tail, InLine token v := by
  rw [HasToken]
  cases io.linesOf f with
  | nil | cons => simp

theorem containsToken_iff_hasToken_iff (hf : f ≠ .other) (htoken : token ≠ []) :
    (io.containsToken f token = true ↔ io.HasToken f token) ↔ io.FirstDecides f token := by
  have hor : (∃ v ∈ (io.linesOf f).head?, InLine token v ∨ LooksInLine token v) ↔
      (∃ v ∈ (io.linesOf f).head?, InLine token v) ∨ ∃ v ∈ (io.linesOf f).head?,
        LooksInLine token v := by
    cases (io.linesOf f).head? <;> simp
  have hlogic (a b c : Prop) : (a ∨ b ↔ a ∨ c) ↔ a ∨ (b ↔ c) := by tauto
  rw [containsToken_iff hf htoken, hor, hasToken_iff_head_or_tail]
  exact hlogic _ _ _

end Inbound

/-- **The tokens of a field.**  The loop of `contains_token` looks at every element of its line.  It
finds a token exactly when some line of the field has it, if and only if the first line decides, or,
for the fields without a number of their own, if and only if no line has it; and what the parser
notes about chunked framing and about an expected `100 Continue` is as good as that. -/
theorem containsToken_iff_of_firstDecides (io : Inbound) (f : Field) (token : List Byte) :
    (token ≠ [] →
      io.containsToken f token = (io.get f != [] && tokenLoop token (io.get f)) ∧
      (f = .other → ((io.containsToken f token = true ↔ io.HasToken f token) ↔
        ¬io.HasToken f token)) ∧
      (f ≠ .other → ((io.containsToken f token = true ↔ io.HasToken f token) ↔
        io.FirstDecides f token))) ∧
      ∀ (p : Parser) (facts : Facts),
        (((p.noteHead facts).chunked = true ↔ p.io.HasToken .transferEncoding (ascii "chunked")) ↔
          p.io.FirstDecides .transferEncoding (ascii "chunked")) ∧
        (((p.noteHead facts).expectsContinue = true ↔ p.io.HasToken .expect
          (ascii "100-continue")) ↔
          p.io.FirstDecides .expect (ascii "100-continue")) := by
  refine ⟨fun htoken => ⟨?_, ?_, ?_⟩, fun p facts => ⟨?_, ?_⟩⟩
  · rw [tokenLoop_eq_hasToken htoken]
    rfl
  · rintro rfl
    have hnever : io.containsToken .other token = false := rfl
    simp [hnever]
  · exact fun hf => Inbound.containsToken_iff_hasToken_iff hf htoken
  · exact Inbound.containsToken_iff_hasToken_iff (by decide) (by decide)
  · exact Inbound.containsToken_iff_hasToken_iff (by decide) (by decide)

/-- Two lines of one field, `first` and `second`, as they stand in the head buffer. -/
def twoLines (f : Field) (first second : List Byte) : Inbound :=
  { head := { mem := Mem.zero.write 0 (first ++ second), cap := 4096,
              w := first.length + second.length }
    headers :=
      [{ value := { off := 0, len := first.length }, field := f },
       { value := { off := first.length, len := second.length }, field := f }] }

/-- The first line has the token, in another case and behind another element. -/
theorem containsToken_iff_of_firstDecides_gzip :
    (twoLines .transferEncoding (ascii "gzip ,\t Chunked") (ascii "br")).containsToken
      .transferEncoding
      (ascii "chunked") = true :=
  (((containsToken_iff_of_firstDecides
    (twoLines .transferEncoding (ascii "gzip ,\t Chunked") (ascii "br"))
    .transferEncoding (ascii "chunked")).1 (by decide)).2.2 (by decide)).mpr
      (.inl (by decide +kernel)) |>.mpr
    (by decide +kernel)

/-- A request parser whose message has these entries. -/
def parserOf (io : Inbound) : Parser :=
  { limits := { maxHeaders := 64, maxTrailers := 16, maxBodyBytes := 1048576 }, response := false,
    io }

/-- **A token on a later line is not found**: a message with `Transfer-Encoding: gzip` and
`Transfer-Encoding: chunked` is chunked, and is not noted as such. -/
theorem later_line_not_looked_at :
    (twoLines .transferEncoding (ascii "gzip") (ascii "chunked")).HasToken .transferEncoding
      (ascii "chunked") ∧
      (twoLines .transferEncoding (ascii "gzip") (ascii "chunked")).containsToken .transferEncoding
        (ascii "chunked") = false ∧
      ((parserOf (twoLines .transferEncoding (ascii "gzip") (ascii "chunked"))).noteHead
        {}).chunked = false := by
  decide +kernel

end Cornet.Http
