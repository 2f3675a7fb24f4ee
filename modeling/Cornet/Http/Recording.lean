import Cornet.Http.Sheet

/-!
# Http/Recording — the parser keeps a sheet

    off, len, spilled?  ──resolve──▸  the bytes of the sheet, and nothing will be written over them

What the parser has recorded of a header section are places in the head buffer and in the spill
buffer.  `Keeps` says that such a place has the right bytes and lies where no more is written; from
it follows that one call of llhttp does to the parser what the same reports do to a sheet
(`lex_refines`).
-/

namespace Cornet.Http

open List HeadBuffer

/-! ## Places -/

namespace Spill

variable {s s' s'' : Spill} {l : List Byte}

/-- More has been copied, behind what was there. -/
structure Grows (s s' : Spill) : Prop where
  used_le : s.used ≤ s'.used
  view_eq : ∀ off len, off + len ≤ s.used → s'.view off len = s.view off len

theorem Grows.refl (s : Spill) : Grows s s := ⟨le_rfl, fun _ _ _ => rfl⟩

theorem Grows.trans (h : Grows s s') (h' : Grows s' s'') : Grows s s'' :=
  ⟨h.used_le.trans h'.used_le,
    fun off len hle => (h'.view_eq off len (hle.trans h.used_le)).trans (h.view_eq off len hle)⟩

/-- What `put` does when there is room. -/
theorem put_eq_some (h : s.used + l.length ≤ kCapacity) :
    ∃ s', s.put l = some s' ∧ Grows s s' ∧ s'.used = s.used + l.length ∧
      s'.view s.used l.length = l := by
  refine ⟨_, if_neg (not_lt.mpr h), ⟨Nat.le_add_right _ _, fun off len hle => ?_⟩, rfl, ?_⟩
  · exact Mem.read_write_of_disjoint (.inl hle)
  · exact Mem.read_write_self

theorem put_eq_none (h : kCapacity < s.used + l.length) : s.put l = none := if_pos h

theorem view_add (s : Spill) (off a b : ℕ) : s.view off (a + b) = s.view off a ++
    s.view (off + a) b :=
  Mem.read_add s.mem off a b

end Spill

theorem HeadBuffer.view_add (b : HeadBuffer) (off m n : ℕ) :
    b.view off (m + n) = b.view off m ++ b.view (off + m) n :=
  Mem.read_add b.mem off m n

theorem HeadBuffer.take_view (b : HeadBuffer) (off : ℕ) {m n : ℕ} (h : m ≤ n) :
    (b.view off n).take m = b.view off m := by
  obtain ⟨d, rfl⟩ := Nat.exists_eq_add_of_le h
  rw [b.view_add, take_append_of_le_length (by exact Mem.length_read.ge),
    take_of_length_le (by exact Mem.length_read.le)]

@[simp] theorem HeadBuffer.length_view (b : HeadBuffer) (off n : ℕ) : (b.view off n).length = n :=
  Mem.length_read

theorem Inbound.resolve_plain (io : Inbound) {r : Ref} (h : r.spilled = false) :
    io.resolve r = io.head.view r.off r.len := by
  rw [resolve, h]
  split_ifs with hz
  · rw [hz]
    rfl
  · contradiction
  · rfl

theorem Inbound.resolve_spilled (io : Inbound) {r : Ref} (h : r.spilled = true) :
    io.resolve r = io.spill.view r.off r.len := by
  rw [resolve, h]
  split_ifs with hz
  · rw [hz]
    rfl
  · rfl
  · contradiction

@[simp] theorem Inbound.length_resolve (io : Inbound)
    (r : Ref) : (io.resolve r).length = r.len := by
  rw [resolve]
  split_ifs with h
  · exact h.symm
  · exact Mem.length_read
  · exact Mem.length_read

/-- The place `r` has the bytes `l`, and nothing will be written over them: in the head buffer it
lies below `lim`, in the spill buffer it is in use. -/
structure Keeps (io : Inbound) (lim : ℕ) (r : Ref) (l : List Byte) : Prop where
  text : io.resolve r = l
  within : r.off + r.len ≤ if r.spilled then io.spill.used else lim

variable {io io' : Inbound} {lim lim' pos n : ℕ} {r : Ref} {t : Text} {pen : Pen} {l : List Byte}
  {b : Bool}

theorem Keeps.len_eq (h : Keeps io lim r l) : r.len = l.length := by
  rw [← h.text, Inbound.length_resolve]

/-- **Places keep their bytes** while the head buffer is written behind `lim` and the spill buffer
behind its end. -/
theorem Keeps.mono (h : Keeps io lim r l) (hlim : lim ≤ lim')
    (hhead : ∀ off len, off + len ≤ lim → io'.head.view off len = io.head.view off len)
    (hspill : io.spill.Grows io'.spill) : Keeps io' lim' r l := by
  obtain ⟨htext, hwithin⟩ := h
  constructor
  · rw [← htext]
    cases hsp : r.spilled with
    | true =>
      rw [hsp, if_pos rfl] at hwithin
      rw [io.resolve_spilled hsp, io'.resolve_spilled hsp, hspill.view_eq _ _ hwithin]
    | false =>
      rw [hsp, if_neg nofun] at hwithin
      rw [io.resolve_plain hsp, io'.resolve_plain hsp, hhead _ _ hwithin]
  · split_ifs at hwithin ⊢
    · exact hwithin.trans hspill.used_le
    · exact hwithin.trans hlim

/-- Places stay good while runs are noted. -/
theorem Keeps.advance {spill : Spill} (h : Keeps io pos r l) (hgrows : io.spill.Grows spill)
    (n : ℕ) :
    Keeps { io with spill } (pos + n) r l :=
  h.mono (Nat.le_add_right pos n) (fun _ _ _ => rfl) hgrows

/-- A text that grows: where its next run has to stand to be added in place, or that it ends what is
spilled. -/
structure Grown (io : Inbound) (pos : ℕ) (pen : Pen) (r : Ref) (t : Text) : Prop extends
    Keeps io pos r t.bytes where
  used_eq : io.spill.used = pen.used
  spilled_eq : r.spilled = t.spilled
  plain : t.spilled = false → t.bytes ≠ [] → (pen.flush = true ↔ r.off + r.len = pos)
  spilled : t.spilled = true → t.bytes ≠ [] ∧ r.off + r.len = io.spill.used

/-! ## Runs -/

/-- What a run that is kept does. -/
def Accepted (io : Inbound) (pos : ℕ) (pen : Pen) (t : Text)
    (res : Except ReadError (Ref × Spill)) : Prop :=
  ∃ r spill, res = .ok (r, spill) ∧ io.spill.Grows spill ∧ Grown { io with spill } pos pen r t

/-- The parser adds a run as a text does. -/
def Refines (io : Inbound) (pos : ℕ) (res : Except ReadError (Ref × Spill)) : Option (Text × Pen) →
    Prop
  | some (t, pen) => Accepted io pos pen t res
  | none => res = .error .headerTooLarge

theorem len_eq_zero_iff (h : Grown io pos pen r t) : r.len = 0 ↔ t = {} := by
  rw [h.len_eq, length_eq_zero_iff]
  constructor
  · intro hnil
    cases hsp : t.spilled with
    | true => exact absurd hnil (h.spilled hsp).1
    | false => cases t; simp_all
  · rintro rfl
    rfl

/-- The first run is noted where it stands. -/
theorem accumulate_first (h : Grown io pos pen r {}) (hn : n ≠ 0) :
    Accepted io (pos + n) { pen with flush := n < 2 ^ 16 }
      ⟨(io.head.view pos n).take (n % 2 ^ 16), false⟩
      (io.accumulate r pos n b false) := by
  have hlen : r.len = 0 := (len_eq_zero_iff h).mpr rfl
  have hsp : r.spilled = false := h.spilled_eq
  have hmod : n % 2 ^ 16 ≤ n := Nat.mod_le _ _
  refine ⟨⟨pos, n % 2 ^ 16, false⟩, io.spill, ?_, .refl _, ⟨?_, Nat.add_le_add_left hmod pos⟩,
    h.used_eq, rfl, ?_,
    nofun⟩
  · simp [Inbound.accumulate, hn, hlen, hsp]
  · rw [io.head.take_view pos hmod, Inbound.resolve_plain _ rfl]
  · intro _ _
    simp only [decide_eq_true_eq, Nat.add_left_cancel_iff]
    constructor
    · exact Nat.mod_eq_of_lt
    · intro heq
      rw [← heq]
      exact Nat.mod_lt _ (by decide)

section

variable (h : Grown io pos pen r t) (hn : n ≠ 0)

include h hn

/-- A run behind what is spilled is copied there. -/
theorem accumulate_spilled (hsp : t.spilled = true) :
    Refines io (pos + n) (io.accumulate r pos n b false) (t.extend pen (io.head.view pos n) b) := by
  obtain ⟨hbytes, hend⟩ := h.spilled hsp
  have hlen : r.len ≠ 0 := by
    rw [h.len_eq]
    exact (length_pos_iff.mpr hbytes).ne'
  have hr : r.spilled = true := h.spilled_eq.trans hsp
  have heq : io.accumulate r pos n b false =
      (io.spill.put (io.head.view pos n)).elim (.error .headerTooLarge) fun spill =>
        if 0xffff < r.len + n then .error .headerTooLarge
          else .ok (⟨r.off, r.len + n, true⟩, spill) := by
    simp only [Inbound.accumulate, hn, hlen, hr]
    cases hput : io.spill.put (io.head.view pos n) <;> simp [hput]
  rw [heq, Text.extend, length_view, hsp, if_pos rfl, ← h.used_eq, ← h.len_eq]
  by_cases hcap : Spill.kCapacity < io.spill.used + n
  · rw [Spill.put_eq_none (by rwa [length_view]), Option.elim_none, if_pos hcap, ite_self]
    rfl
  · obtain ⟨spill, hput, hgrows, hused, hview⟩ :=
      Spill.put_eq_some (s := io.spill) (l := io.head.view pos n)
      (by rw [length_view]; exact not_lt.mp hcap)
    rw [length_view] at hused hview
    rw [hput, Option.elim_some, if_neg hcap]
    split_ifs
    · rfl
    · refine ⟨_, spill, rfl, hgrows, ⟨?_, ?_⟩, hused, rfl,
        by rintro ⟨⟩, fun _ => ⟨by simp [hbytes], ?_⟩⟩
      · have hold : io.spill.view r.off r.len = t.bytes := (io.resolve_spilled hr).symm.trans h.text
        rw [Inbound.resolve_spilled _ rfl]
        change spill.view r.off (r.len + n) = _
        rw [spill.view_add, hgrows.view_eq _ _ hend.le, hold, hend, hview]
      · change r.off + (r.len + n) ≤ spill.used
        omega
      · change r.off + (r.len + n) = spill.used
        omega

/-- A run right behind the last one makes it longer; one somewhere else is copied, behind what was
noted before it. -/
theorem accumulate_plain (ht : t ≠ {}) (hsp : t.spilled = false) :
    Refines io (pos + n) (io.accumulate r pos n b false) (t.extend pen (io.head.view pos n) b) := by
  have hlen : r.len ≠ 0 := mt (len_eq_zero_iff h).mp ht
  have hbytes : t.bytes ≠ [] := fun hnil => hlen (by rw [h.len_eq, hnil]; rfl)
  have hr : r.spilled = false := h.spilled_eq.trans hsp
  have hplain := h.plain hsp hbytes
  have hold : io.head.view r.off r.len = t.bytes := (io.resolve_plain hr).symm.trans h.text
  rw [Text.extend, length_view, hsp, if_neg Bool.false_ne_true, ← h.len_eq, ← h.used_eq]
  cases hflush : pen.flush with
  | true =>
    have hadj : r.off + r.len = pos := hplain.mp hflush
    have heq : io.accumulate r pos n b false =
        if 0xffff < r.len + n then .error .headerTooLarge
          else .ok (⟨r.off, r.len + n, false⟩, io.spill) := by
      simp [Inbound.accumulate, hn, hlen, hr, hadj]
    rw [heq, if_pos rfl]
    split_ifs
    · rfl
    · refine ⟨_, io.spill, rfl, .refl _, ⟨?_, ?_⟩, h.used_eq, rfl, fun _ _ => ?_, by rintro ⟨⟩⟩
      · rw [Inbound.resolve_plain _ rfl]
        change io.head.view r.off (r.len + n) = _
        rw [io.head.view_add, hold, hadj]
      · change r.off + (r.len + n) ≤ pos + n
        omega
      · rw [hflush]
        change true = true ↔ r.off + (r.len + n) = pos + n
        simp only [true_iff]
        omega
  | false =>
    have hadj : ¬ r.off + r.len = pos :=
      fun hc => Bool.false_ne_true (hflush.symm.trans (hplain.mpr hc))
    have heq : io.accumulate r pos n b false =
        if b = false then .error .headerTooLarge
        else
          (io.spill.put t.bytes).elim (.error .headerTooLarge) fun spill =>
            (spill.put (io.head.view pos n)).elim (.error .headerTooLarge) fun spill' =>
              if 0xffff < r.len + n then .error .headerTooLarge
              else .ok (⟨io.spill.used, r.len + n, true⟩, spill') := by
      rw [← hold]
      cases b with
      | false => simp [Inbound.accumulate, hn, hlen, hr, hadj]
      | true =>
        simp only [Inbound.accumulate, hn, hlen, hr, hadj]
        cases io.spill.put (io.head.view r.off r.len) with
        | none => simp
        | some spill => cases hput : spill.put (io.head.view pos n) <;> simp [hput]
    rw [heq, if_neg Bool.false_ne_true]
    cases b with
    | false =>
      rw [if_pos rfl, Bool.false_and, if_neg Bool.false_ne_true, ite_self]
      rfl
    | true =>
      rw [if_neg (by rintro ⟨⟩), Bool.true_and]
      by_cases hcap : io.spill.used + r.len + n ≤ Spill.kCapacity
      · rw [h.len_eq] at hcap ⊢
        obtain ⟨spill, hput, hgrows, hused, hview⟩ :=
          Spill.put_eq_some (s := io.spill) (l := t.bytes) (by omega)
        obtain ⟨spill', hput', hgrows', hused', hview'⟩ := Spill.put_eq_some (s := spill)
          (l := io.head.view pos n) (by rw [length_view, hused]; exact hcap)
        rw [length_view] at hused' hview'
        have hsmall : ¬ 0xffff < t.bytes.length + n := by
          have : Spill.kCapacity < 0xffff := by decide
          omega
        rw [hput, Option.elim_some, hput', Option.elim_some, if_neg hsmall, if_neg hsmall,
          if_pos (decide_eq_true hcap)]
        refine ⟨_, spill', rfl, hgrows.trans hgrows', ⟨?_, ?_⟩,
          by rw [hused', hused], rfl, by rintro ⟨⟩,
          fun _ => ⟨by simp [hbytes], ?_⟩⟩
        · rw [Inbound.resolve_spilled _ rfl]
          change spill'.view io.spill.used (t.bytes.length + n) = _
          rw [spill'.view_add, hgrows'.view_eq _ _ hused.ge, hview, ← hused, hview']
        · change io.spill.used + (t.bytes.length + n) ≤ spill'.used
          omega
        · change io.spill.used + (t.bytes.length + n) = spill'.used
          omega
      · rw [if_neg (fun hc => hcap (of_decide_eq_true hc)), ite_self]
        rw [h.len_eq] at hcap
        by_cases hfit : io.spill.used + t.bytes.length ≤ Spill.kCapacity
        · obtain ⟨spill, hput, -, hused, -⟩ := Spill.put_eq_some hfit
          rw [hput, Option.elim_some, Spill.put_eq_none
            (by rw [length_view, hused]; exact not_le.mp hcap)]
          rfl
        · rw [Spill.put_eq_none (not_le.mp hfit)]
          rfl

end

/-- **The parser adds a run as a text does.** -/
theorem accumulate_refines (h : Grown io pos pen r t) (n : ℕ) :
    Refines io (pos + n) (io.accumulate r pos n b false) (t.add pen (io.head.view pos n) b) := by
  by_cases hn : n = 0
  · subst hn
    refine ⟨r, io.spill, ?_, .refl _, h⟩
    simp [Inbound.accumulate]
  have hl : io.head.view pos n ≠ [] := by
    rw [Ne, ← length_eq_zero_iff, length_view]
    exact hn
  rw [Text.add, if_neg hl]
  by_cases ht : t = {}
  · subst ht
    rw [if_pos rfl, length_view]
    exact accumulate_first h hn
  rw [if_neg ht]
  cases hsp : t.spilled with
  | true => exact accumulate_spilled h hn hsp
  | false => exact accumulate_plain h hn ht hsp

/-! ## The parser and its sheet -/

/-- A header, as it is recorded. -/
structure Filed (io : Inbound) (lim : ℕ) (h : HeaderRef) (e : Entry) : Prop where
  field : h.field = e.field
  name : Keeps io lim h.name e.name
  value : Keeps io lim h.value e.value

theorem keeps_empty : Keeps io lim {} [] := ⟨rfl, Nat.zero_le _⟩

theorem grown_empty (hused : io.spill.used = pen.used) : Grown io pos pen {} {} :=
  ⟨keeps_empty, hused, rfl, fun _ h => absurd rfl h, nofun⟩

namespace Parser

variable {p q : Parser} {s s' : Sheet} {k : Gate} {i : Item} {items rest : List Item}

def gate (p : Parser) : Gate := ⟨p.limits, p.response, p.responseTo⟩

/-- The notes of a message that has begun, up to `pos`. -/
structure Noted (p : Parser) (pos : ℕ) (s : Sheet) : Prop where
  parsing : p.io.head.parsing = true
  headers : List.Forall₂ (Filed p.io pos) p.io.headers s.entries
  plain : ∀ h ∈ p.io.headers, h.trailer = false
  trailer : p.pending.trailer = false
  valid : p.pendingValid = s.valid
  field : p.pending.field = s.field
  target : Keeps p.io pos p.target s.target.bytes
  name : Keeps p.io pos p.pending.name s.name.bytes
  value : Keeps p.io pos p.pending.value s.value.bytes
  onLine : s.phase = .line → Grown p.io pos s.pen p.target s.target
  onName : ∀ t, s.phase = .name t → Grown p.io pos s.pen p.pending.name s.name
  onValue : ∀ t, s.phase = .value t → Grown p.io pos s.pen p.pending.value s.value
  named : s.phase.inField = true → s.valid = true
  noName : s.phase.inField = false → p.pending.name = {} ∧ s.name = {}
  noValue : s.phase.inValue = false → p.pending.value = {} ∧ s.value = {}

/-- **The parser has recorded this sheet**, up to `pos`.  Between messages there is nothing to
record. -/
structure Shows (p : Parser) (pos : ℕ) (s : Sheet) : Prop where
  past : p.past = false
  error : p.error = none
  used : p.io.spill.used = s.pen.used
  noted : s.phase ≠ .idle → p.Noted pos s

/-- The entries stay good while runs are noted. -/
theorem Noted.headers_advance {spill : Spill} (h : p.Noted pos s) (hgrows : p.io.spill.Grows spill)
    (n : ℕ) :
    List.Forall₂ (Filed { p.io with spill } (pos + n)) p.io.headers s.entries :=
  h.headers.imp fun _ _ hf => ⟨hf.field, hf.name.advance hgrows n, hf.value.advance hgrows n⟩

/-- What is recorded does not depend on the window. -/
theorem Shows.congr (h : p.Shows pos s) (hpast : q.past = p.past) (herror : q.error = p.error)
    (hspill : q.io.spill = p.io.spill) (hheaders : q.io.headers = p.io.headers)
    (hparsing : q.io.head.parsing = p.io.head.parsing)
    (hview : ∀ off len, off + len ≤ pos → q.io.head.view off len = p.io.head.view off len)
    (hpending : q.pending = p.pending) (hvalid : q.pendingValid = p.pendingValid)
      (htarget : q.target = p.target) :
    q.Shows pos s := by
  have hgrows : p.io.spill.Grows q.io.spill := hspill ▸ .refl _
  have hk {r : Ref} {l : List Byte} (hr : Keeps p.io pos r l) : Keeps q.io pos r l :=
    hr.mono le_rfl hview hgrows
  have hg {r : Ref} {t : Text} (hr : Grown p.io pos s.pen r t) : Grown q.io pos s.pen r t :=
    ⟨hk hr.toKeeps, hspill ▸ hr.used_eq, hr.spilled_eq, hr.plain, hspill ▸ hr.spilled⟩
  exact ⟨hpast.trans h.past, herror.trans h.error, hspill ▸ h.used, fun hne =>
    have h := h.noted hne
    { parsing := hparsing.trans h.parsing
      headers := hheaders ▸ h.headers.imp fun _ _ hf => ⟨hf.field, hk hf.name, hk hf.value⟩
      plain := hheaders ▸ h.plain, trailer := hpending ▸ h.trailer, valid := hvalid.trans h.valid
      field := hpending ▸ h.field, target := htarget ▸ hk h.target, name := hpending ▸ hk h.name
      value := hpending ▸ hk h.value, onLine := fun hp => htarget ▸ hg (h.onLine hp)
      onName := fun t hp => hpending ▸ hg (h.onName t hp), onValue :=
        fun t hp => hpending ▸ hg (h.onValue t hp)
      named := h.named, noName := hpending ▸ h.noName, noValue := hpending ▸ h.noValue }⟩

/-- What the sheet does, the parser does. -/
def Follows (p : Parser) (pos n : ℕ) (i : Item) : Reading → Prop
  | .going s' => ∃ q, p.onItem pos n i = (q, .ok) ∧ q.Shows (pos + n) s'
  | .headed s' f => p.onItem pos n i = (p.headed f, .pause) ∧ p.Shows (pos + n) s'
  | .failed e =>
    ∃ q, p.onItem pos n i = (q, .fail) ∧ q.error.or (some (.llhttp hpeInternal)) = some e

theorem follows_raw (h : p.Shows pos s) (l : List Byte) :
    p.Follows pos l.length (.raw l) (s.step k (.raw l)) := by
  have hk {r : Ref} {l' : List Byte} (hr : Keeps p.io pos r l') : Keeps p.io (pos + l.length) r
    l' :=
    Keeps.advance hr (.refl _) _
  have hg {r : Ref} {t : Text} (hr : Grown p.io pos s.pen r t) (hsp : r.spilled = t.spilled) :
      Grown p.io (pos + l.length) { s.pen with flush := s.pen.flush && l = [] } r t := by
    refine ⟨hk hr.toKeeps, hr.used_eq, hr.spilled_eq, fun hplain hne => ?_, hr.spilled⟩
    have hwithin := hr.within
    rw [hr.spilled_eq, hplain, if_neg Bool.false_ne_true] at hwithin
    by_cases hl : l = []
    · subst hl
      simpa using hr.plain hplain hne
    · have hpos : 0 < l.length := length_pos_iff.mpr hl
      simp only [hl, decide_false, Bool.and_false, Bool.false_eq_true, false_iff]
      omega
  exact ⟨p, rfl, h.past, h.error, h.used, fun hne =>
    have h := h.noted hne
    { parsing := h.parsing
      headers := h.headers.imp fun _ _ hf => ⟨hf.field, hk hf.name, hk hf.value⟩
      plain := h.plain, trailer := h.trailer, valid := h.valid, field := h.field, target :=
        hk h.target
      name := hk h.name, value := hk h.value
      onLine := fun hp => hg (h.onLine hp) (h.onLine hp).spilled_eq
      onName := fun t hp => hg (h.onName t hp) (h.onName t hp).spilled_eq
      onValue := fun t hp => hg (h.onValue t hp) (h.onValue t hp).spilled_eq
      named := h.named, noName := h.noName, noValue := h.noValue }⟩

theorem follows_url (h : p.Shows pos s) (hphase : s.phase = .line)
    (hview : p.io.head.view pos l.length = l) :
    p.Follows pos l.length (.run .url l) (s.onUrl l) := by
  have hn := h.noted (by rw [hphase]; rintro ⟨⟩)
  have hspec := accumulate_refines (b := true) (hn.onLine hphase) l.length
  rw [hview] at hspec
  rw [Sheet.onUrl, Sheet.write]
  cases hadd : s.target.add s.pen l true with
  | none =>
    rw [hadd, Refines] at hspec
    refine ⟨{ p with error := some .headerTooLarge }, ?_, rfl⟩
    rw [onItem, onRun, onUrl, hspec]
  | some t =>
    rw [hadd] at hspec
    obtain ⟨r, spill, hacc, hgrows, hgrown⟩ := hspec
    exact ⟨{ p with io := { p.io with spill }, target := r }, by rw [onItem, onRun, onUrl, hacc],
      h.past, h.error, hgrown.used_eq, fun _ =>
      { parsing := hn.parsing
        headers := hn.headers_advance hgrows _
        plain := hn.plain, trailer := hn.trailer, valid := hn.valid, field := hn.field, target :=
          hgrown.toKeeps
        name := hn.name.advance hgrows _, value := hn.value.advance hgrows _
        onLine := fun _ => hgrown
        onName := fun t hp => absurd (hphase.symm.trans hp) (by rintro ⟨⟩)
        onValue := fun t hp => absurd (hphase.symm.trans hp) (by rintro ⟨⟩)
        named := hn.named, noName := hn.noName, noValue := hn.noValue }⟩

theorem follows_field (h : p.Shows pos s) (hidle : s.phase ≠ .idle)
    (hphase : s.phase.inValue = false)
    (hview : p.io.head.view pos l.length = l) : p.Follows pos l.length (.run .field l)
      (s.onField l) := by
  have hn := h.noted hidle
  have hgrown : Grown p.io pos s.pen p.pending.name s.name := by
    by_cases hname : ∃ t, s.phase = .name t
    · obtain ⟨t, hname⟩ := hname
      exact hn.onName t hname
    · obtain ⟨h₁, h₂⟩ := hn.noName (by
        revert hname hphase
        cases s.phase <;> simp [Phase.inField, Phase.inValue])
      rw [h₁, h₂]
      exact grown_empty h.used
  have hspec := accumulate_refines (b := false) hgrown l.length
  rw [hview] at hspec
  have hdrops : p.dropsTrailer = false := by simp [dropsTrailer, h.past]
  rw [Sheet.onField, Sheet.write]
  cases hadd : s.name.add s.pen l false with
  | none =>
    rw [hadd, Refines] at hspec
    refine ⟨{ p with error := some .headerTooLarge }, ?_, rfl⟩
    simp [onItem, onRun, onHeaderField, hdrops, h.past, hspec, refuse]
  | some t =>
    rw [hadd] at hspec
    obtain ⟨r, spill, hacc, hgrows, hgrown⟩ := hspec
    have heq : p.onItem pos l.length (.run .field l) =
        ({ p with
          io := { p.io with spill }, pending := { p.pending with name := r, trailer := false }
          pendingValid := true }, .ok) := by
      simp [onItem, onRun, onHeaderField, hdrops, h.past, hacc]
    exact ⟨_, heq,
      h.past, h.error, hgrown.used_eq, fun _ =>
      { parsing := hn.parsing
        headers := hn.headers_advance hgrows _
        plain := hn.plain, trailer := rfl, valid := rfl, field := hn.field, target :=
          hn.target.advance hgrows _
        name := hgrown.toKeeps, value := hn.value.advance hgrows _
        onLine := by rintro ⟨⟩
        onName := fun _ _ => hgrown
        onValue := by rintro _ ⟨⟩
        named := fun _ => rfl
        noName := by rintro ⟨⟩
        noValue := fun _ => hn.noValue hphase }⟩

theorem follows_value {t : Bool} (h : p.Shows pos s) (hphase : s.phase = .value t)
    (hview : p.io.head.view pos l.length = l) : p.Follows pos l.length (.run .value l)
      (s.onValue l) := by
  have hn := h.noted (by rw [hphase]; rintro ⟨⟩)
  have hspec := accumulate_refines (b := true) (hn.onValue t hphase) l.length
  rw [hview] at hspec
  have hdrops : p.dropsTrailer = false := by simp [dropsTrailer, h.past]
  rw [Sheet.onValue, Sheet.write]
  cases hadd : s.value.add s.pen l true with
  | none =>
    rw [hadd, Refines] at hspec
    refine ⟨{ p with error := some .headerTooLarge }, ?_, rfl⟩
    simp [onItem, onRun, onHeaderValue, hdrops, h.past, hspec, refuse]
  | some t =>
    rw [hadd] at hspec
    obtain ⟨r, spill, hacc, hgrows, hgrown⟩ := hspec
    have heq : p.onItem pos l.length (.run .value l) =
        ({ p with io := { p.io with spill }, pending := { p.pending with value := r } }, .ok) := by
      simp [onItem, onRun, onHeaderValue, hdrops, h.past, hacc]
    exact ⟨_, heq,
      h.past, h.error, hgrown.used_eq, fun _ =>
      { parsing := hn.parsing
        headers := hn.headers_advance hgrows _
        plain := hn.plain, trailer := hn.trailer, valid := hn.valid, field := hn.field, target :=
          hn.target.advance hgrows _
        name := hn.name.advance hgrows _, value := hgrown.toKeeps
        onLine := fun hp => absurd (hphase.symm.trans hp) (by rintro ⟨⟩)
        onName := fun _ hp => absurd (hphase.symm.trans hp) (by rintro ⟨⟩)
        onValue := fun _ _ => hgrown
        named := hn.named
        noName := hn.noName
        noValue := fun hp => by
          change s.phase.inValue = false at hp
          rw [hphase] at hp
          cases hp }⟩

theorem follows_messageBegin (h : p.Shows pos s) :
    p.Follows pos 0 (.call .messageBegin) (s.step k (.call .messageBegin)) := by
  refine ⟨p.onMessageBegin, ?_, ?_⟩
  · rw [onItem, onCall, if_neg (by rw [h.past]; rintro ⟨⟩)]
  · exact ⟨h.past, h.error, h.used, fun _ =>
      { parsing := rfl, headers := .nil, plain := by rintro _ ⟨⟩, trailer := rfl
        valid := rfl, field := rfl, target := keeps_empty, name := keeps_empty, value := keeps_empty
        onLine := fun _ => grown_empty h.used, onName := by rintro _ ⟨⟩, onValue := by rintro _ ⟨⟩
        named := by rintro ⟨⟩, noName := fun _ => ⟨rfl, rfl⟩, noValue := fun _ => ⟨rfl, rfl⟩ }⟩

theorem follows_fieldComplete {t : Bool} (h : p.Shows pos s) (hphase : s.phase = .name t) :
    p.Follows pos 0 (.call .fieldComplete) (s.step k (.call .fieldComplete)) := by
  have hn := h.noted (by rw [hphase]; rintro ⟨⟩)
  obtain ⟨hvalue, hvalue'⟩ := hn.noValue (by rw [hphase]; rfl)
  refine ⟨p.onHeaderFieldComplete, rfl, ?_⟩
  have hfield : p.onHeaderFieldComplete =
      { p with
        pending :=
          { p.pending with field := if s.valid then fieldFromName s.name.bytes else s.field }
            } := by
    rw [onHeaderFieldComplete]
    cases hvalid : s.valid with
    | true => rw [if_pos (hn.valid.trans hvalid), if_pos rfl, hn.name.text]
    | false =>
      rw [if_neg (by rw [hn.valid, hvalid]; rintro ⟨⟩), if_neg Bool.false_ne_true, ← hn.field]
  rw [hfield]
  exact ⟨h.past, h.error, h.used, fun _ =>
    { parsing := hn.parsing, headers := hn.headers, plain := hn.plain, trailer := hn.trailer,
      valid := hn.valid
      field := rfl, target := hn.target, name := hn.name, value := hn.value
      onLine := by rintro ⟨⟩, onName := by rintro _ ⟨⟩
      onValue := fun _ _ => by
        change Grown p.io pos s.pen p.pending.value s.value
        rw [hvalue, hvalue']
        exact grown_empty h.used
      named := fun _ => hn.named (by rw [hphase]; rfl)
      noName := by rintro ⟨⟩, noValue := by rintro ⟨⟩ }⟩

/-- Before the end of a header section there are no trailers. -/
theorem Noted.ofKind_eq (h : p.Noted pos s) : p.io.ofKind false = p.io.headers := by
  rw [Inbound.ofKind, filter_eq_self]
  intro e he
  simp [h.plain e he]

theorem Noted.length_eq (h : p.Noted pos s) : (p.io.ofKind false).length = s.entries.length := by
  rw [h.ofKind_eq]
  exact h.headers.length_eq

theorem Noted.count_eq (h : p.Noted pos s) (f : Field) :
    ((p.io.ofKind false).filter (·.field == f)).length = s.count f := by
  have hmap : p.io.headers.map (·.field) = s.entries.map (·.field) := by
    have hforall := h.headers
    generalize p.io.headers = hs at hforall
    generalize s.entries = es at hforall
    induction hforall with
    | nil => rfl
    | cons hf _ ih => rw [map_cons, map_cons, hf.field, ih]
  have hcount := congrArg (List.countP (· == f)) hmap
  rw [countP_map, countP_map] at hcount
  rw [h.ofKind_eq, ← countP_eq_length_filter]
  exact hcount

theorem Noted.has_eq (h : p.Noted pos s) {f : Field} (hf : f ≠ .other) : p.io.has
    f = (s.count f != 0) := by
  rw [Inbound.has, ← h.count_eq f, bne_iff_ne.mpr hf, Bool.true_and, Bool.eq_iff_iff, any_eq_true,
    bne_iff_ne, Ne, length_eq_zero_iff, filter_eq_nil_iff]
  push Not
  rfl

theorem follows_valueComplete {t : Bool} (h : p.Shows pos s) (hphase : s.phase = .value t) :
    p.Follows pos 0 (.call .valueComplete) (s.step p.gate (.call .valueComplete)) := by
  have hn := h.noted (by rw [hphase]; rintro ⟨⟩)
  have hvalid := hn.named (by rw [hphase]; rfl)
  have hadd : p.io.add p.pending p.limits.maxHeaders =
      if p.limits.maxHeaders ≤ s.entries.length then none
      else some { p.io with headers := p.io.headers ++ [p.pending] } := by
    rw [Inbound.add, hn.trailer, hn.length_eq]
  rw [Sheet.step, Sheet.finishHeader, if_neg (by simp [hvalid])]
  by_cases hfull : p.limits.maxHeaders ≤ s.entries.length
  · rw [if_pos hfull] at hadd
    rw [if_pos (by exact hfull)]
    refine ⟨{ p with
      skipTrailer := false, pending := {}, pendingValid := false, error := some .tooManyHeaders },
        ?_, rfl⟩
    simp [onItem, onCall, onHeaderValueComplete, finishHeader, hn.valid, hvalid, hn.trailer, hadd]
  · rw [if_neg hfull] at hadd
    rw [if_neg (by exact hfull)]
    have heq : p.onItem pos 0 (.call .valueComplete) =
        ({ p with
          skipTrailer := false, pending := {}, pendingValid := false
          io := { p.io with headers := p.io.headers ++ [p.pending] } }, .ok) := by
      simp [onItem, onCall, onHeaderValueComplete, finishHeader, hn.valid, hvalid, hn.trailer, hadd]
    have hk {r : Ref} {l : List Byte} (hr : Keeps p.io pos r l) :
        Keeps { p.io with headers := p.io.headers ++ [p.pending] } pos r l :=
      hr.mono le_rfl (fun _ _ _ => rfl) (.refl _)
    exact ⟨_, heq, h.past, h.error, h.used, fun _ =>
      { parsing := hn.parsing
        headers :=
          rel_append (hn.headers.imp fun _ _ hf => ⟨hf.field, hk hf.name, hk hf.value⟩)
            (.cons ⟨hn.field, hk hn.name, hk hn.value⟩ .nil)
        plain := fun e he => by
          rcases mem_append.mp he with he | he
          · exact hn.plain e he
          · rw [mem_singleton.mp he]
            exact hn.trailer
        trailer := rfl, valid := rfl, field := rfl, target := hk hn.target, name := keeps_empty
        value := keeps_empty, onLine :=
          by rintro ⟨⟩, onName := by rintro _ ⟨⟩, onValue := by rintro _ ⟨⟩, named := by rintro ⟨⟩
        noName := fun _ => ⟨rfl, rfl⟩, noValue := fun _ => ⟨rfl, rfl⟩ }⟩

theorem follows_headersComplete (h : p.Shows pos s) (hidle : s.phase ≠ .idle)
    (hphase : s.phase.inField = false)
    (f : Facts) :
    p.Follows pos 0 (.call (.headersComplete f)) (s.step p.gate (.call (.headersComplete f))) := by
  have hn := h.noted hidle
  have hhost : (p.noteHead f).hostRefused = s.hostRefused p.gate f := by
    have hhas : p.io.has .host = (s.count .host != 0) := hn.has_eq (by decide)
    have hcount := hn.count_eq .host
    rw [hostRefused, Sheet.hostRefused]
    change (!p.response && (f.version == .http11 && !p.io.has .host ||
      decide (1 < ((p.io.ofKind false).filter (·.field == .host)).length))) = _
    rw [hhas, hcount]
    simp [gate, bne]
  have hlength : p.io.has .contentLength = (s.count .contentLength != 0) := hn.has_eq (by decide)
  have hcall : p.onItem pos 0 (.call (.headersComplete f)) =
      if (p.noteHead f).hostRefused then ({ p.noteHead f with error := some .badHeader }, .fail)
      else if (p.noteHead f).hasContentLength &&
          (p.noteHead f).limits.maxBodyBytes < (p.noteHead f).facts.contentLength then
        ({ p.noteHead f with error := some .bodyTooLarge }, .fail)
      else (p.headed f, .pause) := by
    rw [onItem, onCall, if_neg (by rw [h.past]; rintro ⟨⟩), onHeadersComplete, headed]
    split_ifs <;> rfl
  rw [hhost, show (p.noteHead f).hasContentLength = _ from hlength] at hcall
  rw [Sheet.step, Sheet.close]
  by_cases hrefused : s.hostRefused p.gate f = true
  · rw [if_pos hrefused] at hcall ⊢
    exact ⟨_, hcall, rfl⟩
  rw [if_neg hrefused] at hcall ⊢
  by_cases hlarge : (s.count .contentLength !=
    0 && decide (p.limits.maxBodyBytes < f.contentLength)) = true
  · rw [if_pos (by exact hlarge)] at hcall ⊢
    exact ⟨_, hcall, rfl⟩
  · rw [if_neg (by exact hlarge)] at hcall ⊢
    exact ⟨hcall, h.past, h.error, h.used, fun _ =>
      { hn with
        onLine := by
          rintro ⟨⟩, onName := by rintro _ ⟨⟩, onValue := by rintro _ ⟨⟩, named := by rintro ⟨⟩
        noName := fun _ => hn.noName hphase
        noValue := fun _ => hn.noValue (by
          revert hphase
          cases s.phase <;> simp [Phase.inField, Phase.inValue]) }⟩

/-- **One report.**  What the sheet does with it, the parser does. -/
theorem follows_onItem (h : p.Shows pos s) (htakes : s.phase.takes i = true)
    (hview : p.io.head.view pos i.bytes.length = i.bytes) :
    p.Follows pos i.bytes.length i (s.step p.gate i) := by
  cases i with
  | raw l => exact follows_raw h l
  | run span l =>
    cases span with
    | url =>
      have hphase : s.phase = .line := by
        revert htakes
        cases s.phase <;> first | exact fun _ => rfl | rintro ⟨⟩
      exact follows_url h hphase hview
    | field =>
      have hphase : s.phase ≠ .idle ∧ s.phase.inValue = false := by
        revert htakes
        cases s.phase <;> simp [Phase.takes, Phase.inValue]
      exact follows_field h hphase.1 hphase.2 hview
    | value =>
      obtain ⟨t, hphase⟩ : ∃ t, s.phase = .value t := by
        revert htakes
        cases s.phase <;> first | exact fun _ => ⟨_, rfl⟩ | rintro ⟨⟩
      exact follows_value h hphase hview
    | body => exact ⟨p, by simp [onItem, onRun, h.past], by rw [h.error]; rfl⟩
  | call c =>
    cases c with
    | messageBegin => exact follows_messageBegin h
    | fieldComplete =>
      obtain ⟨t, hphase⟩ : ∃ t, s.phase = .name t := by
        revert htakes
        cases s.phase <;> first | exact fun _ => ⟨_, rfl⟩ | rintro ⟨⟩
      exact follows_fieldComplete h hphase
    | valueComplete =>
      obtain ⟨t, hphase⟩ : ∃ t, s.phase = .value t := by
        revert htakes
        cases s.phase <;> first | exact fun _ => ⟨_, rfl⟩ | rintro ⟨⟩
      exact follows_valueComplete h hphase
    | headersComplete f =>
      have hphase : s.phase ≠ .idle ∧ s.phase.inField = false := by
        revert htakes
        cases s.phase <;> simp [Phase.takes, Phase.inField]
      exact follows_headersComplete h hphase.1 hphase.2 f
    | messageComplete => exact ⟨p, by simp [onItem, onCall, h.past], by rw [h.error]; rfl⟩
  | closed => exact ⟨p, by simp [onItem, onRun, h.past, Item.bytes], by rw [h.error]; rfl⟩
  | bad e => exact ⟨_, rfl, by simp [h.error]⟩

/-- The same for a report that a window cuts. -/
theorem follows_cut (h : p.Shows pos s) (htakes : s.phase.takes i = true) (hn : n < i.bytes.length)
    (hview : p.io.head.view pos n = i.bytes.take n) : p.Follows pos n i
      (s.step p.gate (i.take n)) := by
  have hlen : (i.take n).bytes.length = n := by
    rw [Item.bytes_take, length_take, min_eq_left hn.le]
  have htakes' : s.phase.takes (i.take n) = true := by
    revert htakes
    match i, hn with
    | .raw l, _ => cases s.phase <;> exact id
    | .run span l, _ => cases s.phase <;> cases span <;> exact id
  have hspec := follows_onItem (i := i.take n) h htakes' (by rw [hlen, hview, Item.bytes_take])
  rw [hlen] at hspec
  match i, hn with
  | .raw l, _ => exact hspec
  | .run span l, _ => exact hspec

/-- **One call of llhttp.**  The parser records what the sheet says. -/
theorem lex_refines {bare : Bool} : ∀ {items : List Item} {p : Parser} {s : Sheet} {pos n : ℕ},
    p.Shows pos s →
    Ordered bare s.phase items → p.io.head.view pos n <+: bytesOf items →
    match s.lex p.gate n items with
    | (.going s', rest) =>
      ∃ q, p.lex pos n items = (q.stopAt (pos + n) rest, .ok) ∧ q.Shows (pos + n) s' ∧ Passed p q ∧
        Ordered bare s'.phase rest
    | (.headed s' f, rest) =>
      ∃ q pos', p.lex pos n items = ((q.headed f).stopAt pos' rest, .paused) ∧ q.Shows pos' s' ∧
        Passed p q ∧
        pos' ≤ pos + n ∧ s'.phase = .body ∧
          (Ordered bare .body rest ∨ bare = true ∧ Ordered bare .idle rest)
    | (.failed e, _) =>
      ∃ q, p.lex pos n items = (q, .failed) ∧ q.error.or (some (.llhttp hpeInternal)) = some e
  | [], p, s, pos, n, h, _, hfed => by
      have hn : n = 0 := by
        have := congrArg List.length (prefix_nil.mp hfed)
        rwa [length_view] at this
      subst hn
      exact ⟨p, rfl, h, .refl p, trivial⟩
  | i :: items, p, s, pos, n, h, horder, hfed => by
      by_cases hw : n = 0 ∧ i.waits = true
      · obtain ⟨rfl, hw⟩ := hw
        rw [Sheet.lex_wait hw]
        exact ⟨p, by simp [lex, hw], h, .refl p, horder⟩
      have hw' : ¬ (n = 0 && i.waits) = true := by simpa using hw
      by_cases hends : i.endsIn n = true
      · have hle := Item.length_le_of_endsIn hends
        obtain ⟨hview, hfed'⟩ := view_covers hfed hle
        have hspec := follows_onItem h horder.1 hview
        rw [Sheet.lex_eat hw hends, lex, if_neg hw', if_pos hends]
        cases hstep : s.step p.gate i with
        | going s₁ =>
          rw [hstep] at hspec
          obtain ⟨q, hq, hshows⟩ := hspec
          have hpassed := (passed_of_onItem hq).1
          have hgate : q.gate = p.gate := by
            rw [gate, gate, hpassed.limits_eq, hpassed.response_eq, hpassed.responseTo_eq]
          have ih := @lex_refines bare items q s₁ (pos + i.bytes.length) (n - i.bytes.length) hshows
            (Sheet.phase_of_step hstep ▸ horder.tail (Sheet.heads_of_going hstep)) (by
              rw [hpassed.view_eq]
              exact hfed')
          rw [hgate, Nat.add_assoc, Nat.add_sub_cancel' hle] at ih
          rw [hq]
          dsimp only
          generalize s₁.lex p.gate (n - i.bytes.length) items = r at ih
          obtain ⟨s' | ⟨s', f⟩ | e, rest⟩ := r
          · obtain ⟨q', hlex, hshows', hpassed', hrest⟩ := ih
            exact ⟨q', hlex, hshows', hpassed.trans hpassed', hrest⟩
          · obtain ⟨q', pos', hlex, hshows', hpassed', hpos⟩ := ih
            exact ⟨q', pos', hlex, hshows', hpassed.trans hpassed', hpos⟩
          · exact ih
        | headed s₁ f =>
          rw [hstep] at hspec
          obtain ⟨rfl, rfl⟩ := Sheet.headed_of_step hstep
          refine ⟨p, pos + _, by
            rw [hspec.1], hspec.2, .refl p, Nat.add_le_add_left hle pos, rfl, ?_⟩
          rcases horder.2 with hrest | ⟨hbare, hrest⟩
          · exact .inl hrest
          · exact .inr ⟨by simpa [Item.heads] using hbare, hrest⟩
        | failed e =>
          rw [hstep] at hspec
          obtain ⟨q, hq, herr⟩ := hspec
          exact ⟨q, by rw [hq], herr⟩
      · rw [Sheet.lex_cut hw hends, lex, if_neg hw', if_neg hends]
        rcases Item.lt_length_of_not_endsIn hends with rfl | hn
        · refine ⟨p, ?_, by rw [h.error]; rfl⟩
          by_cases hn : n = 0
          · simp [onItem, onRun, h.past, hn]
          · simp [onItem, hn]
        have hspec := follows_cut h horder.1 hn (view_cut hfed hn)
        cases hstep : s.step p.gate (i.take n) with
        | going s₁ =>
          rw [hstep] at hspec
          obtain ⟨q, hq, hshows⟩ := hspec
          have hphase : s₁.phase = s.phase.next i :=
            (Sheet.phase_of_step hstep).trans (Phase.next_take _ _ _)
          exact ⟨q, by rw [hq], hshows, (passed_of_onItem hq).1, hphase ▸ horder.drop hn⟩
        | headed s₁ f => exact absurd hstep (Sheet.step_take_ne_headed hn s₁ f)
        | failed e =>
          rw [hstep] at hspec
          obtain ⟨q, hq, herr⟩ := hspec
          exact ⟨q, by rw [hq], herr⟩

end Parser

end Cornet.Http
