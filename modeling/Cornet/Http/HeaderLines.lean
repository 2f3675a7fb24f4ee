import Cornet.Http.Client.Outgoing

/-!
# Http/HeaderLines — header calls into a buffer of any capacity

    header · header_u64 · date_header        ──▸   name ": " value CRLF   for each call, in order
                                  too small  ──▸   … and a part of the line of the call that failed

A value with CR or LF fails the buffer before anything of its line is written, so no call can add a
line that is not its own.
-/

namespace Cornet.Http

open List

open OutBuffer Serializer

/-! ## Buffers that may fail -/

/-- What stands in a buffer. -/
def OutBuffer.text (b : OutBuffer) : List Byte := b.view 0 b.size

/-- `b'` has a first part of `l` behind what `b` has, all of it unless it failed; a failure
stays. -/
structure OutBuffer.Writes (b : OutBuffer) (l : List Byte) (b' : OutBuffer) : Prop where
  stays : b.err ≠ none → b' = b
  part : ∃ p, p <+: l ∧ b'.text = b.text ++ p
  whole : b'.err = none → b'.text = b.text ++ l

variable {b b₁ b₂ : OutBuffer} {l l₁ l₂ : List Byte}

theorem writes_same (h : b₁.text = b.text) (herr : b₁.err ≠ none)
    (hstays : b.err ≠ none → b₁ = b) : b.Writes l b₁ :=
  ⟨hstays, ⟨[], nil_prefix, h.trans (append_nil _).symm⟩, fun h => absurd h herr⟩

theorem writes_nil (b : OutBuffer) : b.Writes [] b :=
  ⟨fun _ => rfl, ⟨[], prefix_rfl, (append_nil _).symm⟩, fun _ => (append_nil _).symm⟩

theorem OutBuffer.Writes.trans (h₁ : b.Writes l₁ b₁) (h₂ : b₁.Writes l₂ b₂) : b.Writes
    (l₁ ++ l₂) b₂ := by
  refine ⟨fun h => ?_, ?_, fun h => ?_⟩
  · obtain rfl := h₁.stays h
    exact h₂.stays h
  · by_cases herr : b₁.err = none
    · obtain ⟨p, hp, htext⟩ := h₂.part
      refine ⟨l₁ ++ p, (prefix_append_right_inj l₁).mpr hp, ?_⟩
      rw [htext, h₁.whole herr, append_assoc]
    · obtain ⟨p, hp, htext⟩ := h₁.part
      rw [h₂.stays herr]
      exact ⟨p, hp.trans (prefix_append _ _), htext⟩
  · have herr : b₁.err = none := by
      by_contra herr
      exact herr (h₂.stays herr ▸ h)
    rw [h₂.whole h, h₁.whole herr, append_assoc]

theorem writes_append (need : ℕ) (l : List Byte) : b.Writes l (b.append need l) := by
  rw [OutBuffer.append]
  split_ifs with herr hroom
  · exact writes_same rfl (Option.isSome_iff_ne_none.mp herr) fun _ => rfl
  · exact writes_same rfl (by rintro ⟨⟩) fun h => absurd (Option.isSome_iff_ne_none.mpr h) herr
  · have htext : (b.mem.write b.size l).read 0 (b.size + l.length) = b.text ++ l := by
      rw [Mem.read_add, Nat.zero_add, Mem.read_write_self, Mem.read_write_of_disjoint
        (.inl (Nat.zero_add _).le)]
      rfl
    exact ⟨fun h => absurd (Option.isSome_iff_ne_none.mpr h) herr, ⟨l, prefix_rfl, htext⟩, fun _ =>
      htext⟩

theorem writes_fail (e : HttpError) (l : List Byte) : b.Writes l (b.fail e) := by
  refine writes_same ?_ (Client.err_fail_ne_none e) fun h =>
    if_pos (Option.isSome_iff_ne_none.mpr h)
  rw [fail]
  split <;> rfl

theorem writes_put (h : l.length < 2 ^ 32) : b.Writes l (b.put l) := by
  rw [OutBuffer.put, clip_of_lt h]
  exact writes_append _ l

theorem writes_putCrlf : b.Writes crlf b.putCrlf := writes_put (by decide)

/-! ## Line ends -/

theorem hasCrlf_append (l l' : List Byte) : hasCrlf (l ++ l') = (hasCrlf l || hasCrlf l') := by
  simp only [hasCrlf, mem_append, Bool.decide_or]
  cases decide (13 ∈ l) <;> cases decide (10 ∈ l) <;> simp

theorem hasCrlf_namePrefix (f : Field) : hasCrlf f.namePrefix = false := by cases f <;> decide

/-! ## Calls -/

inductive HeaderCall
  | header (f : Field) (value : List Byte)
  | headerNamed (name value : List Byte)
  | headerU64 (f : Field) (value : ℕ)
  | dateHeader (date : List Byte)
  deriving DecidableEq, Repr

namespace HeaderCall

def apply (out : OutBuffer) : HeaderCall → OutBuffer
  | .header f v => Serializer.header out f v
  | .headerNamed n v => Serializer.headerNamed out n v
  | .headerU64 f v => Serializer.headerU64 out f v
  | .dateHeader d => Serializer.dateHeader out d

/-- The texts are shorter than 4 GiB, and a date has no line end in it. -/
def Small : HeaderCall → Prop
  | .header _ v => v.length < 2 ^ 32
  | .headerNamed n v => n.length < 2 ^ 32 ∧ v.length < 2 ^ 32
  | .headerU64 _ _ => True
  | .dateHeader d => d.length < 2 ^ 32 ∧ hasCrlf d = false

/-- What stands before the CRLF of its line: `name: value`, where there is a name. -/
def content : HeaderCall → List Byte
  | .header f v => f.namePrefix ++ v
  | .headerNamed n v => n ++ ascii ": " ++ v
  | .headerU64 f v => f.namePrefix ++ writeU64 v
  | .dateHeader d => Field.namePrefix .date ++ d

/-- Its line; an empty date has none. -/
def line (call : HeaderCall) : List Byte := if call = .dateHeader [] then
    [] else call.content ++ crlf

variable {call : HeaderCall}

theorem writes_namePrefix (f : Field) : b.Writes f.namePrefix (b.put f.namePrefix) :=
  writes_put (by have := length_namePrefix_le f; omega)

/-- **One call** writes its line, with no CR or LF in it but the CRLF at its end. -/
theorem writes_apply (out : OutBuffer) (h : call.Small) : out.Writes call.line (apply out call) ∧
    ((apply out call).err = none → hasCrlf call.content = false) := by
  cases call with
  | header f v =>
    rw [line, if_neg (by rintro ⟨⟩), apply, Serializer.header, content, hasCrlf_append,
      hasCrlf_namePrefix]
    split_ifs with hv
    · exact ⟨writes_fail _ _, fun herr => absurd herr (Client.err_fail_ne_none _)⟩
    · exact ⟨((writes_namePrefix f).trans (writes_put h)).trans writes_putCrlf, fun _ =>
        by simpa using hv⟩
  | headerNamed n v =>
    rw [line, if_neg (by rintro ⟨⟩), apply, Serializer.headerNamed, content, hasCrlf_append,
      hasCrlf_append]
    split_ifs with hv
    · exact ⟨writes_fail _ _, fun herr => absurd herr (Client.err_fail_ne_none _)⟩
    · refine ⟨(((writes_put h.1).trans (writes_put (by decide))).trans (writes_put h.2)).trans
        writes_putCrlf, ?_⟩
      simp only [Bool.not_eq_true, Bool.or_eq_false_iff] at hv
      exact fun _ => by rw [hv.1, hv.2]; rfl
  | headerU64 f v =>
    rw [line, if_neg (by rintro ⟨⟩), content, hasCrlf_append, hasCrlf_namePrefix,
      Client.hasCrlf_writeU64]
    exact ⟨((writes_namePrefix f).trans (writes_append 20 _)).trans writes_putCrlf, fun _ => rfl⟩
  | dateHeader d =>
    rw [apply, Serializer.dateHeader, content, hasCrlf_append, hasCrlf_namePrefix, h.2, line]
    by_cases hd : d = []
    · rw [hd, if_pos rfl, if_pos rfl]
      exact ⟨writes_nil out, fun _ => rfl⟩
    · rw [if_neg hd, if_neg (by simpa using hd)]
      exact ⟨((writes_namePrefix .date).trans (writes_put h.1)).trans writes_putCrlf, fun _ => rfl⟩

end HeaderCall

/-- The buffer after some calls. -/
def afterCalls (cap : ℕ) (calls : List HeaderCall) : OutBuffer :=
  calls.foldl HeaderCall.apply { cap := cap }

/-- **No header is split.**  A buffer that has not failed holds one line for each call, in order,
and a line has no CR or LF but the CRLF at its end.  One that failed stays as the call left it that
failed, and holds the lines of the calls before and a part of the line of that one. -/
theorem header_calls_write_lines (cap : ℕ) (calls : List HeaderCall)
    (hsmall : ∀ call ∈ calls, call.Small) :
    ((afterCalls cap calls).err = none → (afterCalls cap calls).text = calls.flatMap
      HeaderCall.line ∧
      ∀ call ∈ calls, hasCrlf call.content = false) ∧
    ((afterCalls cap calls).err ≠ none → ∃ done call rest, calls = done ++ call :: rest ∧
      (afterCalls cap done).err = none ∧ afterCalls cap calls = afterCalls cap (done ++ [call]) ∧
      done.flatMap HeaderCall.line <+: (afterCalls cap calls).text ∧
      (afterCalls cap calls).text <+: (done ++ [call]).flatMap HeaderCall.line) := by
  induction calls using List.reverseRecOn with
  | nil => exact ⟨fun _ => ⟨rfl, by rintro _ ⟨⟩⟩, fun h => absurd rfl h⟩
  | append_singleton calls call ih =>
    obtain ⟨hwhole, hcut⟩ := ih fun x hx => hsmall x (mem_append_left _ hx)
    obtain ⟨hwrites, hclean⟩ := HeaderCall.writes_apply (afterCalls cap calls)
      (hsmall call (mem_append_right _ mem_cons_self))
    have hstep : afterCalls cap (calls ++ [call]) = HeaderCall.apply (afterCalls cap calls)
      call := by
      rw [afterCalls, foldl_concat]
      rfl
    rw [hstep, flatMap_append, flatMap_singleton]
    by_cases herr : (afterCalls cap calls).err = none
    · obtain ⟨htext, hlines⟩ := hwhole herr
      refine ⟨fun h => ⟨by rw [hwrites.whole h, htext], fun x hx => ?_⟩, fun h => ?_⟩
      · rcases mem_append.mp hx with hx | hx
        · exact hlines x hx
        · rw [mem_singleton.mp hx]
          exact hclean h
      · obtain ⟨p, hp, htext'⟩ := hwrites.part
        rw [htext] at htext'
        refine ⟨calls, call, [], rfl, herr, hstep.symm, ?_⟩
        rw [htext', flatMap_append, flatMap_singleton]
        exact ⟨prefix_append _ _, (prefix_append_right_inj _).mpr hp⟩
    · rw [hwrites.stays herr]
      refine ⟨fun h => absurd h herr, fun _ => ?_⟩
      obtain ⟨done, failed, rest, rfl, hdone, hsame, hparts⟩ := hcut herr
      exact ⟨done, failed, rest ++ [call], by simp, hdone, hsame, hparts⟩

theorem header_calls_write_lines_two :
    (afterCalls 64 [.header .host (ascii "h"), .headerU64 .contentLength 5]).text =
      ascii "Host: h\r\nContent-Length: 5\r\n" :=
  ((header_calls_write_lines 64 [.header .host (ascii "h"), .headerU64 .contentLength 5]
    (by simp [HeaderCall.Small, ascii])).1 (by decide +kernel)).1.trans (by decide +kernel)

/-- **Two calls that write no `name: value`**: a field without a name, and an empty date. -/
theorem nameless_calls :
    (afterCalls 64 [.header .other (ascii "v"), .dateHeader []]).err = none ∧
      (afterCalls 64 [.header .other (ascii "v"), .dateHeader []]).text = ascii "v\r\n" := by
  decide +kernel

end Cornet.Http
