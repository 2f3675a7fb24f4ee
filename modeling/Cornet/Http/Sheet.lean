import Cornet.Http.Lexing

/-!
# Http/Sheet — what a header section says

    GET /x … · Host: a · Fold: b⏎ c ·          ──▸   target /x,  [(Host, a), (Fold, bc)]

The parser notes where names and values stand in its buffers.  A sheet is the same notes written
out: it has the bytes themselves, and nothing in it knows of buffers, offsets or windows.  Read in
one piece or cut anywhere, a header section gives one sheet (`lex_add`), as long as no run has 64
KiB: lengths have 16 bits, and the first run of a text is not checked against that.
-/

namespace Cornet.Http

open List

/-! ## The order of callbacks -/

/-- Where llhttp is: between messages, in a start line, in a body, or in a name, in a value or
behind a value of the header section or of the trailers. -/
inductive Phase
  | idle | line | body
  | name (trailer : Bool) | value (trailer : Bool) | gap (trailer : Bool)
  deriving DecidableEq, Repr

namespace Phase

/-- The header section is complete, the message is not. -/
def trails : Phase → Bool
  | .body => true
  | .name t | .value t | .gap t => t
  | _ => false

def inValue : Phase → Bool
  | .value _ => true
  | _ => false

/-- A header has begun. -/
def inField : Phase → Bool
  | .name _ | .value _ => true
  | _ => false

/-- What llhttp may report next. -/
def takes : Phase → Item → Bool
  | _, .bad _ => true
  | .idle, .raw _ | .idle, .call .messageBegin => true
  | .line, .raw _ | .line, .run .url _ | .line, .run .field _ | .line, .call (.headersComplete _) =>
    true
  | .body, .raw _ | .body, .run .body _ | .body, .run .field _ | .body,
    .call .messageComplete | .body, .closed => true
  | .name _, .run .field _ | .name _, .call .fieldComplete => true
  | .value _, .raw _ | .value _, .run .value _ | .value _, .call .valueComplete => true
  | .gap _, .raw _ | .gap _, .run .field _ => true
  | .gap false, .call (.headersComplete _) | .gap true, .call .messageComplete => true
  | _, _ => false

def next : Phase → Item → Phase
  | φ, .run .field _ => .name φ.trails
  | _, .call .messageBegin => .line
  | φ, .call .fieldComplete => .value φ.trails
  | φ, .call .valueComplete => .gap φ.trails
  | _, .call (.headersComplete _) => .body
  | _, .call .messageComplete | _, .closed => .idle
  | φ, _ => φ

end Phase

/-- It ends a header section. -/
def Item.heads : Item → Bool
  | .call (.headersComplete _) => true
  | _ => false

/-- llhttp's reading of a stream, from a phase on.  `bare` messages may end with their header
section, as the responses to HEAD do. -/
def Ordered (bare : Bool) : Phase → List Item → Prop
  | _, [] => True
  | φ, i :: rest =>
    φ.takes i = true ∧ (Ordered bare (φ.next i) rest ∨ (bare && i.heads) = true ∧
      Ordered bare .idle rest)

instance decidableOrdered (bare : Bool) : ∀ (φ : Phase) (items : List Item),
    Decidable (Ordered bare φ items)
  | _, [] => isTrue trivial
  | φ, i :: rest =>
    have := decidableOrdered bare (φ.next i) rest
    have := decidableOrdered bare .idle rest
    inferInstanceAs (Decidable (_ ∧ (_ ∨ _ ∧ _)))

variable {bare : Bool} {φ : Phase} {i : Item} {rest : List Item} {n m : ℕ}

theorem Ordered.tail (h : Ordered bare φ (i :: rest))
    (hi : i.heads = false) : Ordered bare (φ.next i) rest :=
  h.2.resolve_right fun hc => by
    rw [hi, Bool.and_false] at hc
    exact absurd hc.1 nofun

theorem Ordered.drop (h : Ordered bare φ (i :: rest)) (hn : n < i.bytes.length) :
    Ordered bare (φ.next i) (i.drop n :: rest) := by
  match i, hn with
  | .raw l, _ =>
    obtain ⟨htakes, htail⟩ := And.intro h.1 (h.tail rfl)
    revert htakes htail
    cases φ <;> exact fun h₁ h₂ => ⟨h₁, .inl h₂⟩
  | .run span l, _ =>
    obtain ⟨htakes, htail⟩ := And.intro h.1 (h.tail rfl)
    revert htakes htail
    cases φ <;> cases span <;> first | exact fun h₁ h₂ => ⟨rfl, .inl h₂⟩ | exact fun h₁ => absurd h₁ nofun

/-- The first `n` bytes of it. -/
def Item.take (n : ℕ) : Item → Item
  | raw l => raw (l.take n)
  | run k l => run k (l.take n)
  | i => i

theorem Phase.next_take (φ : Phase) (n : ℕ) (i : Item) : φ.next (i.take n) = φ.next i := by
  cases i with
  | run span l => cases φ <;> cases span <;> rfl
  | _ => cases φ <;> rfl

@[simp] theorem Item.bytes_take : (i.take n).bytes = i.bytes.take n := by
  cases i <;> simp [take, bytes]

theorem Item.take_take : (i.take (n + m)).take n = i.take n := by
  cases i <;> simp [take, List.take_take]

theorem Item.drop_take : (i.take (n + m)).drop n = (i.drop n).take m := by
  cases i <;> simp [take, drop, List.drop_take]

theorem Item.drop_drop : (i.drop n).drop m = i.drop (n + m) := by
  cases i <;> simp [drop]

theorem Item.endsIn_of_le (hi : i ≠ closed) (h : i.bytes.length ≤ n) : i.endsIn n = true := by
  cases i with
  | closed => exact absurd rfl hi
  | _ => exact decide_eq_true h

theorem Item.endsIn_mono (h : i.endsIn n = true) (hnm : n ≤ m) : i.endsIn m = true := by
  refine endsIn_of_le ?_ ((length_le_of_endsIn h).trans hnm)
  rintro rfl
  cases h

theorem Item.endsIn_drop (hle : i.bytes.length ≤ n + m) (hn : n < i.bytes.length) :
    (i.drop n).endsIn m = true := by
  match i, hn with
  | .raw l, _ | .run _ l, _ =>
    refine decide_eq_true ?_
    rw [bytes_drop, length_drop]
    omega

/-! ## Sheets -/

/-- A name, a value or a target. -/
structure Text where
  bytes : List Byte := []
  /-- It was copied to the spill buffer. -/
  spilled : Bool := false
  deriving DecidableEq, Repr

/-- Where the next run will be written. -/
structure Pen where
  /-- The text of the phase ends with the last byte that came. -/
  flush : Bool := false
  /-- How much of the spill buffer is used. -/
  used : ℕ := 0
  deriving DecidableEq, Repr

namespace Text

/-- A text that has begun grows by a run: behind itself, or in the spill buffer. -/
def extend (t : Text) (pen : Pen) (l : List Byte) (allowSpill : Bool) : Option (Text × Pen) :=
  if 0xffff < t.bytes.length + l.length then none
  else if t.spilled then
    if Spill.kCapacity < pen.used + l.length then none
    else some ({ t with bytes := t.bytes ++ l }, { pen with used := pen.used + l.length })
  else if pen.flush then some ({ t with bytes := t.bytes ++ l }, pen)
  else if allowSpill && pen.used + t.bytes.length + l.length ≤ Spill.kCapacity then
    some
      ({ bytes := t.bytes ++ l, spilled := true },
        { pen with used := pen.used + t.bytes.length + l.length })
  else none

/-- A text grows by a run; the length of its first one is not checked. -/
def add (t : Text) (pen : Pen) (l : List Byte) (allowSpill : Bool) : Option (Text × Pen) :=
  if l = [] then some (t, pen)
  else if t = {} then
    some ({ bytes := l.take (l.length % 2 ^ 16) }, { pen with flush := l.length < 2 ^ 16 })
  else t.extend pen l allowSpill

end Text

/-- A header. -/
structure Entry where
  name : List Byte
  value : List Byte
  field : Field
  deriving DecidableEq, Repr

/-- The notes on a header section. -/
structure Sheet where
  phase : Phase := .idle
  target : Text := {}
  name : Text := {}
  value : Text := {}
  field : Field := .other
  valid : Bool := false
  entries : List Entry := []
  pen : Pen := {}
  deriving DecidableEq, Repr

/-- What the parser is told about the messages it reads. -/
structure Gate where
  limits : Limits
  response : Bool
  responseTo : Server.Method
  deriving DecidableEq, Repr

/-- How far a header section was read. -/
inductive Reading
  | going (s : Sheet)
  | headed (s : Sheet) (f : Facts)
  | failed (e : ReadError)
  deriving DecidableEq, Repr

namespace Sheet

variable (k : Gate) (s : Sheet)

/-- The run is written down, unless it does not fit. -/
def write (t : Text) (l : List Byte) (allowSpill : Bool) (put : Text → Pen → Sheet) : Reading :=
  match t.add s.pen l allowSpill with
  | some (t, pen) => .going (put t pen)
  | none => .failed .headerTooLarge

def onUrl (l : List Byte) : Reading :=
  s.write s.target l true fun target pen => { s with target, pen }

def onField (l : List Byte) : Reading :=
  s.write s.name l false fun name pen =>
    { s with name, pen, valid := true, phase := .name s.phase.trails }

def onValue (l : List Byte) : Reading :=
  s.write s.value l true fun value pen => { s with value, pen }

/-- A header is complete. -/
def finishHeader : Reading :=
  if !s.valid then .going { s with phase := .gap s.phase.trails }
  else if k.limits.maxHeaders ≤ s.entries.length then .failed .tooManyHeaders
  else
    .going
      { s with
        phase := .gap s.phase.trails, name := {}, value := {}, field := .other, valid := false
        entries := s.entries ++ [⟨s.name.bytes, s.value.bytes, s.field⟩] }

/-- How many headers of this name there are. -/
def count (f : Field) : ℕ := s.entries.countP (·.field == f)

/-- HTTP/1.1 names its host, and no request names two. -/
def hostRefused (f : Facts) : Bool :=
  !k.response && ((f.version == .http11 && s.count .host == 0) || 1 < s.count .host)

/-- The header section is complete. -/
def close (f : Facts) : Reading :=
  if s.hostRefused k f then .failed .badHeader
  else if s.count .contentLength != 0 && k.limits.maxBodyBytes < f.contentLength then
    .failed .bodyTooLarge
  else .headed { s with phase := .body } f

/-- One report of llhttp. -/
def step : Item → Reading
  | .raw l => .going { s with pen := { s.pen with flush := s.pen.flush && l = [] } }
  | .run .url l => s.onUrl l
  | .run .field l => s.onField l
  | .run .value l => s.onValue l
  | .call .messageBegin => .going { phase := .line, pen := { used := s.pen.used } }
  | .call .fieldComplete =>
    .going
      { s with
        phase := .value s.phase.trails
        field := if s.valid then fieldFromName s.name.bytes else s.field }
  | .call .valueComplete => s.finishHeader k
  | .call (.headersComplete f) => s.close k f
  | .bad e => .failed (.llhttp e)
  -- not in a header section
  | .run .body _ | .call .messageComplete | .closed => .failed (.llhttp hpeInternal)

/-- The next `n` bytes, and what is left of the stream when it can still be read. -/
def lex (s : Sheet) (n : ℕ) : List Item → Reading × List Item
  | [] => (if n = 0 then .going s else .failed (.llhttp hpeInternal), [])
  | i :: rest =>
    if n = 0 && i.waits then (.going s, i :: rest)
    else if i.endsIn n then
      match s.step k i with
      | .going s => s.lex (n - i.bytes.length) rest
      | .headed s f => (.headed s f, rest)
      | .failed e => (.failed e, [])
    else
      match s.step k (i.take n) with
      | .going s => (.going s, i.drop n :: rest)
      | r => (r, [])

end Sheet

/-! ## Cuts -/

/-- What follows a cut. -/
def Reading.andThen (r : Reading) (g : Sheet → Reading) : Reading :=
  match r with
  | .going s => g s
  | r => r

/-- No run of a name, a value or a target has 64 KiB. -/
def Item.short : Item → Bool
  | .run .body _ => true
  | .run _ l => l.length < 2 ^ 16
  | _ => true

theorem Item.short_take (h : i.short = true) : (i.take n).short = true := by
  cases i with
  | run k l =>
    cases k with
    | body => rfl
    | _ =>
      have hlen : l.length < 2 ^ 16 := by simpa [short] using h
      exact decide_eq_true ((length_take_le' n l).trans_lt hlen)
  | _ => rfl

theorem Item.short_drop (h : i.short = true) : (i.drop n).short = true := by
  cases i with
  | run k l =>
    cases k with
    | body => rfl
    | _ =>
      have hlen : l.length < 2 ^ 16 := by simpa [short] using h
      exact decide_eq_true (((drop_sublist n l).length_le).trans_lt hlen)
  | _ => rfl

/-- The items of a header section. -/
def headOf (items : List Item) : List Item := items.takeWhile (!·.heads)

/-- No run that is taken before the header section ends or is refused has 64 KiB. -/
def Sheet.readsShort (k : Gate) (s : Sheet) : List Item → Bool
  | [] => true
  | i :: rest =>
    match s.step k i with
    | .going s => i.short && s.readsShort k rest
    | _ => true

/-- The runs of a header section, joined. -/
structure Said where
  target : List Byte := []
  fields : List (List Byte × List Byte) := []
  name : List Byte := []
  value : List Byte := []

def Said.hear (d : Said) : Item → Said
  | .call .messageBegin => {}
  | .run .url l => { d with target := d.target ++ l }
  | .run .field l => { d with name := d.name ++ l }
  | .run .value l => { d with value := d.value ++ l }
  | .call .valueComplete =>
    { d with fields := d.fields ++ [(d.name, d.value)], name := [], value := [] }
  | _ => d

/-- What the header section at the head of a stream says. -/
def said (items : List Item) : Said := (headOf items).foldl Said.hear {}

namespace Text

variable {t : Text} {pen : Pen} {l l₁ l₂ : List Byte} {b : Bool}

theorem extend_append : t.extend pen (l₁ ++ l₂) b = (t.extend pen l₁ b).bind fun r =>
    r.1.extend r.2 l₂ b := by
  obtain ⟨bytes, spilled⟩ := t
  simp only [extend, length_append]
  by_cases hbig : 0xffff < bytes.length + l₁.length
  · rw [if_pos (by omega), if_pos hbig]
    rfl
  rw [if_neg hbig]
  cases spilled with
  | true =>
    by_cases hcap : Spill.kCapacity < pen.used + l₁.length
    · rw [if_pos hcap, if_pos (show Spill.kCapacity < pen.used + (l₁.length + l₂.length) by omega)]
      simp
    · simp [hcap, Nat.add_assoc]
  | false =>
    cases hflush : pen.flush with
    | true => simp [hflush, Nat.add_assoc]
    | false =>
      by_cases hfit : (b && decide (pen.used + bytes.length + l₁.length ≤ Spill.kCapacity)) = true
      · have hb : b = true := (Bool.and_eq_true _ _ ▸ hfit : _ ∧ _).1
        subst hb
        rw [if_pos hfit]
        simp only [Bool.false_eq_true, if_false, if_true, Option.bind_some, Bool.true_and,
          decide_eq_true_eq,
          length_append, append_assoc, Nat.add_assoc]
        by_cases hle : pen.used + (bytes.length + (l₁.length + l₂.length)) ≤ Spill.kCapacity
        · rw [if_pos hle, if_neg (not_lt.mpr hle)]
        · rw [if_neg hle, if_pos (not_le.mp hle)]
      · rw [if_neg hfit]
        have hfit' : ¬ (b && decide (pen.used + bytes.length + (l₁.length + l₂.length) ≤
          Spill.kCapacity)) =
            true := by
          simp only [Bool.and_eq_true, decide_eq_true_eq, not_and] at hfit ⊢
          intro hb hle
          exact hfit hb (by omega)
        simp only [Bool.false_eq_true, if_false, if_neg hfit', ite_self]
        rfl

/-- A text that has begun stays begun. -/
theorem ne_empty_of_extend {r : Text × Pen} (ht : t ≠ {}) (h : t.extend pen l b = some r) : r.1 ≠
    {} := by
  have hbytes : t.bytes = [] → t.spilled = true := by
    intro hnil
    by_contra hsp
    exact ht (by cases t; simp_all)
  rw [extend] at h
  split_ifs at h with _ hsp
  all_goals
    obtain rfl := Option.some.inj h
    intro heq
    injection heq with h₁ h₂
    have hnil := (append_eq_nil_iff.mp h₁).1
    simp_all

/-- **A run may be cut**, unless it is a first one of 64 KiB. -/
theorem add_append (h : t = {} → (l₁ ++ l₂).length < 2 ^ 16) :
    t.add pen (l₁ ++ l₂) b = (t.add pen l₁ b).bind fun r => r.1.add r.2 l₂ b := by
  by_cases hne₁ : l₁ = []
  · simp [add, hne₁]
  by_cases hne₂ : l₂ = []
  · subst hne₂
    rw [append_nil]
    cases t.add pen l₁ b with
    | none => rfl
    | some r => simp [add]
  have hne : l₁ ++ l₂ ≠ [] := by simp [hne₁]
  rw [add, if_neg hne, add, if_neg hne₁]
  by_cases hfirst : t = {}
  · have hlen := h hfirst
    have hlen' := hlen
    rw [length_append] at hlen'
    have hmod : l₁.length % 2 ^ 16 = l₁.length := Nat.mod_eq_of_lt (by omega)
    rw [if_pos hfirst, if_pos hfirst, hmod, Nat.mod_eq_of_lt hlen, take_length, take_length,
      Option.bind_some, add, if_neg hne₂, if_neg (by simp [hne₁]), extend,
        if_neg (by dsimp only; omega)]
    simp [show l₁.length < 65536 by omega, show l₁.length + l₂.length < 65536 by omega]
  · rw [if_neg hfirst, if_neg hfirst, extend_append]
    cases hext : t.extend pen l₁ b with
    | none => rfl
    | some r => rw [Option.bind_some, Option.bind_some, add, if_neg hne₂, if_neg (ne_empty_of_extend hfirst hext)]

/-- A text does not grow beyond 16 bits once it has begun. -/
theorem add_eq_none (ht : t ≠ {}) (hlen : 0xffff < t.bytes.length + l.length) (hl : l ≠ []) :
    t.add pen l b = none := by
  rw [add, if_neg hl, if_neg ht, extend, if_pos hlen]

end Text

namespace Sheet

variable {k : Gate} {s s' : Sheet} {t t' : Text} {l : List Byte} {b : Bool}
  {put : Text → Pen → Sheet} {f : Facts}

theorem andThen_write {l₁ l₂ : List Byte} (h : t = {} → (l₁ ++ l₂).length < 2 ^ 16)
    {g : Sheet → Reading}
    (hg : ∀ t pen, g (put t pen) = (put t pen).write t l₂ b put)
      (hpen : ∀ t pen, (put t pen).pen = pen) :
    s.write t (l₁ ++ l₂) b put = (s.write t l₁ b put).andThen g := by
  rw [write, write, Text.add_append h]
  cases t.add s.pen l₁ b with
  | none => rfl
  | some r =>
    change _ = g (put r.1 r.2)
    rw [hg, write, hpen]
    rfl

/-- The report begins a name, a value or a target. -/
def opens (s : Sheet) : Item → Bool
  | .run .url _ => s.target = {}
  | .run .field _ => s.name = {}
  | .run .value _ => s.value = {}
  | _ => false

theorem write_of_first (ht : t = {}) : ∃ s', s.write t l b put = .going s' := by
  by_cases hl : l = []
  · exact ⟨_, by rw [write, Text.add, if_pos hl]⟩
  · exact ⟨_, by rw [write, Text.add, if_neg hl, if_pos ht]⟩

/-- A first run is always taken. -/
theorem going_of_opens (h : s.opens i = true) : ∃ s', s.step k i = .going s' := by
  match i, h with
  | .run .url l, h | .run .field l, h | .run .value l, h =>
    exact write_of_first (of_decide_eq_true h)

theorem opens_take (s : Sheet) (i : Item) (n : ℕ) : s.opens (i.take n) = s.opens i := by
  cases i with
  | run span l => cases span <;> rfl
  | _ => rfl

theorem readsShort_cons (hstep : s.step k i = .going s') :
    s.readsShort k (i :: rest) = (i.short && s'.readsShort k rest) := by
  rw [readsShort, hstep]

theorem short_of_opens (h : s.readsShort k (i :: rest) = true)
    (ho : s.opens i = true) : i.short = true := by
  obtain ⟨s', hstep⟩ := going_of_opens (k := k) ho
  rw [readsShort_cons hstep, Bool.and_eq_true] at h
  exact h.1

/-- **A report may be cut**, unless it is a first run of 64 KiB. -/
theorem step_cut (hi : s.opens i = true → i.short = true) (hn : n < i.bytes.length) :
    s.step k i = (s.step k (i.take n)).andThen fun s => s.step k (i.drop n) := by
  cases i with
  | raw l =>
    have htail : l.drop n ≠ [] := by
      rw [Ne, drop_eq_nil_iff]
      exact not_le.mpr hn
    have hl : l ≠ [] := by
      rintro rfl
      exact absurd hn (Nat.not_lt_zero n)
    simp [step, Item.take, Item.drop, Reading.andThen, hl, htail]
  | run span l =>
    have hcut : l = l.take n ++ l.drop n := (take_append_drop n l).symm
    cases span with
    | body => rfl
    | url =>
      have hlen : s.target = {} → l.length < 2 ^ 16 := by simpa [opens, Item.short] using hi
      exact (congrArg s.onUrl hcut).trans
        (andThen_write (hcut ▸ hlen) (fun _ _ => rfl) fun _ _ => rfl)
    | field =>
      have hlen : s.name = {} → l.length < 2 ^ 16 := by simpa [opens, Item.short] using hi
      exact (congrArg s.onField hcut).trans
        (andThen_write (hcut ▸ hlen) (fun _ _ => rfl) fun _ _ => rfl)
    | value =>
      have hlen : s.value = {} → l.length < 2 ^ 16 := by simpa [opens, Item.short] using hi
      exact (congrArg s.onValue hcut).trans
        (andThen_write (hcut ▸ hlen) (fun _ _ => rfl) fun _ _ => rfl)
  | call | closed | bad => exact absurd hn (Nat.not_lt_zero n)

theorem step_ne_going (hi : i.heads = true) (s' : Sheet) : s.step k i ≠ .going s' := by
  match i, hi with
  | .call (.headersComplete f), _ =>
    rw [step, close]
    split_ifs <;> nofun

theorem write_ne_headed (t : Text) (l : List Byte) (b : Bool) (put : Text → Pen → Sheet)
    (s' : Sheet)
    (f : Facts) : s.write t l b put ≠ .headed s' f := by
  rw [write]
  split <;> nofun

/-- Only the end of a header section is one. -/
theorem headed_of_step (h : s.step k i = .headed s' f) :
    i = .call (.headersComplete f) ∧ s' = { s with phase := .body } := by
  match i, h with
  | .run .url l, h | .run .field l, h | .run .value l, h =>
    exact absurd h (write_ne_headed _ _ _ _ _ _)
  | .call .valueComplete, h =>
    rw [step, finishHeader] at h
    split_ifs at h
  | .call (.headersComplete f), h =>
    rw [step, close] at h
    split_ifs at h
    obtain ⟨rfl, rfl⟩ := Reading.headed.inj h
    exact ⟨rfl, rfl⟩

theorem heads_of_going (h : s.step k i = .going s') : i.heads = false := by
  by_contra hi
  exact step_ne_going (by simpa using hi) s' h

theorem step_take_ne_headed (hn : n < i.bytes.length) (s' : Sheet) (f : Facts) :
    s.step k (i.take n) ≠ .headed s' f := by
  intro h
  have heq := (headed_of_step h).1
  match i, hn with
  | .raw l, _ => cases heq
  | .run _ l, _ => cases heq

/-- What is left of a report that was cut waits for a byte. -/
theorem waits_of_step (h : s.step k (i.take n) = .going s') (hn : n < i.bytes.length) :
    (i.drop n).waits = true := by
  match i, hn with
  | .raw l, _ => rfl
  | .run .url l, _ | .run .field l, _ | .run .value l, _ => rfl
  | .run .body l, _ => cases h

theorem lex_wait (hi : i.waits = true) : s.lex k 0 (i :: rest) = (.going s, i :: rest) := by
  simp [lex, hi]

theorem lex_eat (hw : ¬ (n = 0 ∧ i.waits = true)) (hends : i.endsIn n = true) :
    s.lex k n (i :: rest) =
      match s.step k i with
      | .going s => s.lex k (n - i.bytes.length) rest
      | .headed s f => (.headed s f, rest)
      | .failed e => (.failed e, []) := by
  rw [lex, if_neg (by simpa using hw), if_pos hends]

theorem lex_cut (hw : ¬ (n = 0 ∧ i.waits = true)) (hends : ¬ i.endsIn n = true) :
    s.lex k n (i :: rest) =
      match s.step k (i.take n) with
      | .going s => (.going s, i.drop n :: rest)
      | r => (r, []) := by
  rw [lex, if_neg (by simpa using hw), if_neg hends]

/-- **Windows do not show**: what `n` bytes and then `m` more say is what `n + m` bytes say. -/
theorem lex_add : ∀ {items : List Item} {s : Sheet}, s.readsShort k items = true → ∀ n m : ℕ,
    s.lex k (n + m) items =
      match s.lex k n items with
      | (.going s', rest) => s'.lex k m rest
      | r => r
  | [], s, _, 0, m => by simp [lex]
  | [], s, _, n + 1, m => by simp [lex]
  | i :: rest, s, hshort, n, m => by
      by_cases hw : n = 0 ∧ i.waits = true
      · obtain ⟨rfl, hw⟩ := hw
        rw [lex_wait hw, Nat.zero_add]
      have hw' : ¬ (n + m = 0 ∧ i.waits = true) := fun h => hw ⟨by omega, h.2⟩
      by_cases hends : i.endsIn n = true
      · have hle := Item.length_le_of_endsIn hends
        rw [lex_eat hw hends, lex_eat hw' (Item.endsIn_mono hends (Nat.le_add_right n m))]
        cases hstep : s.step k i with
        | going s' =>
          rw [readsShort_cons hstep, Bool.and_eq_true] at hshort
          rw [Nat.sub_add_comm hle]
          exact lex_add hshort.2 _ m
        | headed | failed => rfl
      · rw [lex_cut hw hends]
        rcases Item.lt_length_of_not_endsIn hends with rfl | hn
        · rw [lex_cut hw' (by simp [Item.endsIn])]
          rfl
        have hi := short_of_opens hshort
        by_cases hends' : i.endsIn (n + m) = true
        · have hle := Item.length_le_of_endsIn hends'
          rw [lex_eat hw' hends', step_cut hi hn]
          cases hstep : s.step k (i.take n) with
          | going s' =>
            have hdrop : (i.drop n).endsIn m = true := Item.endsIn_drop hle hn
            have hlen : m - (i.drop n).bytes.length = n + m - i.bytes.length := by
              rw [Item.bytes_drop, length_drop]
              omega
            change _ = s'.lex k m (i.drop n :: rest)
            rw [lex_eat (by omega) hdrop, hlen]
            rfl
          | headed s' f => exact absurd hstep (step_take_ne_headed hn s' f)
          | failed e => rfl
        · have hlt : n + m < i.bytes.length :=
            (Item.lt_length_of_not_endsIn hends').resolve_left fun h => by
            subst h
            exact absurd hn (Nat.not_lt_zero n)
          rw [lex_cut hw' hends']
          rcases Nat.eq_zero_or_pos m with rfl | hm
          · rw [Nat.add_zero]
            cases hstep : s.step k (i.take n) with
            | going s' =>
              change _ = s'.lex k 0 (i.drop n :: rest)
              rw [lex_wait (waits_of_step hstep hn)]
            | headed | failed => rfl
          have hlen : n < (i.take (n + m)).bytes.length := by
            rw [Item.bytes_take, length_take]
            omega
          have hi' : s.opens (i.take (n + m)) = true → (i.take (n + m)).short = true := fun ho =>
            Item.short_take (hi (opens_take s i _ ▸ ho))
          rw [step_cut hi' hlen, Item.take_take, Item.drop_take]
          cases s.step k (i.take n) with
          | going s' =>
            have hdrop : ¬ (i.drop n).endsIn m = true := fun h => by
              have hle := Item.length_le_of_endsIn h
              rw [Item.bytes_drop, length_drop] at hle
              omega
            change _ = s'.lex k m (i.drop n :: rest)
            rw [lex_cut (by omega) hdrop, Item.drop_drop]
            rfl
          | headed | failed => rfl

/-! ## What the runs say -/

/-- The names and values of a sheet. -/
def fields (s : Sheet) : List (List Byte × List Byte) := s.entries.map fun e => (e.name, e.value)

/-- The sheet has what was said. -/
structure Tells (s : Sheet) (d : Said) : Prop where
  target : s.target.bytes = d.target
  name : s.name.bytes = d.name
  value : s.value.bytes = d.value
  fields : s.fields = d.fields
  valid : s.phase.inField = true → s.valid = true

theorem bytes_add {pen pen' : Pen} (hl : l.length < 2 ^ 16)
    (h : t.add pen l b = some (t', pen')) : t'.bytes = t.bytes ++ l := by
  rw [Text.add] at h
  split_ifs at h with hnil hfirst
  · obtain ⟨rfl, -⟩ := Prod.mk.inj (Option.some.inj h)
    rw [hnil, append_nil]
  · obtain ⟨rfl, -⟩ := Prod.mk.inj (Option.some.inj h)
    rw [hfirst, Nat.mod_eq_of_lt hl, take_length]
    rfl
  · rw [Text.extend] at h
    split_ifs at h
    all_goals
      obtain ⟨rfl, -⟩ := Prod.mk.inj (Option.some.inj h)
      rfl

theorem going_of_write (h : s.write t l b put = .going s') :
    ∃ t' pen, t.add s.pen l b = some (t', pen) ∧ s' = put t' pen := by
  rw [write] at h
  split at h
  · rename_i t' pen hadd
    exact ⟨t', pen, hadd, (Reading.going.inj h).symm⟩
  · cases h

/-- A report moves the phase on. -/
theorem phase_of_step (h : s.step k i = .going s') : s'.phase = s.phase.next i := by
  match i, h with
  | .raw l, h => exact (Reading.going.inj h) ▸ rfl
  | .run .url l, h | .run .field l, h | .run .value l, h =>
    obtain ⟨t', pen, -, rfl⟩ := going_of_write h
    rfl
  | .call .messageBegin, h | .call .fieldComplete, h => exact (Reading.going.inj h) ▸ rfl
  | .call .valueComplete, h =>
    rw [step, finishHeader] at h
    split_ifs at h
    all_goals exact (Reading.going.inj h) ▸ rfl
  | .call (.headersComplete f), h => exact absurd h (step_ne_going rfl s')

theorem Tells.step {d : Said} (hs : s.Tells d) (htakes : s.phase.takes i = true)
    (hi : i.short = true) (h : s.step k i = .going s') : s'.Tells (d.hear i) := by
  obtain ⟨htarget, hname, hvalue, hfields, hvalid⟩ := hs
  match i, h with
  | .raw l, h =>
    obtain rfl := Reading.going.inj h
    exact ⟨htarget, hname, hvalue, hfields, hvalid⟩
  | .run .url l, h =>
    obtain ⟨t', pen, hadd, rfl⟩ := going_of_write h
    refine ⟨?_, hname, hvalue, hfields, hvalid⟩
    change t'.bytes = d.target ++ l
    rw [bytes_add (by simpa [Item.short] using hi) hadd, htarget]
  | .run .field l, h =>
    obtain ⟨t', pen, hadd, rfl⟩ := going_of_write h
    refine ⟨htarget, ?_, hvalue, hfields, fun _ => rfl⟩
    change t'.bytes = d.name ++ l
    rw [bytes_add (by simpa [Item.short] using hi) hadd, hname]
  | .run .value l, h =>
    obtain ⟨t', pen, hadd, rfl⟩ := going_of_write h
    refine ⟨htarget, hname, ?_, hfields, hvalid⟩
    change t'.bytes = d.value ++ l
    rw [bytes_add (by simpa [Item.short] using hi) hadd, hvalue]
  | .call .messageBegin, h =>
    obtain rfl := Reading.going.inj h
    exact ⟨rfl, rfl, rfl, rfl, nofun⟩
  | .call .fieldComplete, h =>
    obtain rfl := Reading.going.inj h
    have hphase : s.phase.inField = true := by
      revert htakes
      cases s.phase <;> first | exact fun _ => rfl | nofun
    exact ⟨htarget, hname, hvalue, hfields, fun _ => hvalid hphase⟩
  | .call .valueComplete, h =>
    have hphase : s.phase.inField = true := by
      revert htakes
      cases s.phase <;> first | exact fun _ => rfl | nofun
    rw [Sheet.step, finishHeader, if_neg (by simp [hvalid hphase])] at h
    split_ifs at h
    obtain rfl := Reading.going.inj h
    refine ⟨htarget, rfl, rfl, ?_, nofun⟩
    rw [Sheet.fields, map_append, ← Sheet.fields, hfields]
    simp [Said.hear, hname, hvalue]
  | .call (.headersComplete f), h => exact absurd h (step_ne_going rfl s')

/-- **A sheet has the runs, joined**, when the header section is short and complete. -/
theorem Tells.lex {bare : Bool} : ∀ {items : List Item} {s s' : Sheet} {d : Said} {n : ℕ} {f : Facts}
    {rest : List Item}, s.Tells d → Ordered bare s.phase items → s.readsShort k items = true →
    s.lex k n items = (.headed s' f, rest) →
    items = headOf items ++ .call (.headersComplete f) :: rest ∧
      s'.Tells ((headOf items).foldl Said.hear d)
  | [], s, s', d, n, f, rest, _, _, _, h => by
      rw [Sheet.lex] at h
      split_ifs at h <;> cases h
  | i :: items, s, s', d, n, f, rest, hs, horder, hshort, h => by
      by_cases hw : n = 0 ∧ i.waits = true
      · obtain ⟨rfl, hw⟩ := hw
        rw [lex_wait hw] at h
        cases h
      by_cases hends : i.endsIn n = true
      · rw [lex_eat hw hends] at h
        cases hstep : s.step k i with
        | going s₁ =>
          rw [hstep] at h
          have hi := heads_of_going hstep
          rw [readsShort_cons hstep, Bool.and_eq_true] at hshort
          obtain ⟨hi', hrest⟩ := hshort
          have hs₁ := hs.step horder.1 hi' hstep
          obtain ⟨heq, htells⟩ := hs₁.lex (phase_of_step hstep ▸ horder.tail hi) hrest h
          have hhead : headOf (i :: items) = i :: headOf items := by
            rw [headOf, takeWhile_cons, hi]
            rfl
          rw [hhead]
          exact ⟨congrArg (i :: ·) heq, htells⟩
        | headed s₁ f₁ =>
          rw [hstep] at h
          obtain ⟨hpair, rfl⟩ := Prod.mk.inj h
          obtain ⟨rfl, rfl⟩ := Reading.headed.inj hpair
          obtain ⟨rfl, rfl⟩ := headed_of_step hstep
          exact ⟨rfl, hs.1, hs.2, hs.3, hs.4, nofun⟩
        | failed e =>
          rw [hstep] at h
          cases h
      · rw [lex_cut hw hends] at h
        cases hstep : s.step k (i.take n) with
        | going | failed =>
          rw [hstep] at h
          cases h
        | headed s₁ f₁ =>
          rcases Item.lt_length_of_not_endsIn hends with rfl | hn
          · cases hstep
          · exact absurd hstep (step_take_ne_headed hn s₁ f₁)

/-! ## Long runs -/

/-- A run of 64 KiB goes through in one piece only if it is a first one; cut behind its first byte
it fails. -/
theorem write_long (hlong : 2 ^ 16 ≤ l.length) (hok : ∀ e, s.write t l b put ≠ .failed e) :
    ∃ t' pen, s.write t (l.take 1) b put = .going (put t' pen) ∧
      (put t' pen).write t' (l.drop 1) b put = .failed .headerTooLarge := by
  obtain ⟨x, l, rfl⟩ := exists_cons_of_length_pos (l := l) (by omega)
  rw [length_cons] at hlong
  have hfirst : t = {} := by
    by_contra ht
    refine hok .headerTooLarge ?_
    rw [write, Text.add_eq_none ht (by rw [length_cons]; omega) (cons_ne_nil x l)]
  have hl : l ≠ [] := by
    rintro rfl
    exact absurd hlong (by decide)
  have hadd : t.add s.pen [x] b = some (⟨[x], false⟩, { s.pen with flush := true }) := by
    rw [Text.add, if_neg (cons_ne_nil x []), if_pos hfirst]
    rfl
  have hnone (pen : Pen) : Text.add ⟨[x], false⟩ pen l b = none :=
    Text.add_eq_none (by simp) (show 0xffff < 1 + l.length by omega) hl
  refine ⟨⟨[x], false⟩, { s.pen with flush := true }, ?_, ?_⟩
  · change s.write t [x] b put = _
    rw [write, hadd]
  · change Sheet.write _ _ l b put = _
    rw [write, hnone]

/-- The same for a report. -/
theorem step_long (hi : i.short = false) (hok : ∀ e, s.step k i ≠ .failed e) :
    1 < i.bytes.length ∧
      ∃ s', s.step k (i.take 1) = .going s' ∧ s'.step k (i.drop 1) = .failed .headerTooLarge := by
  match i, hi with
  | .run .url l, hi | .run .field l, hi | .run .value l, hi =>
    have hlong : 2 ^ 16 ≤ l.length := by simpa [Item.short] using hi
    obtain ⟨t', pen, hfirst, hsecond⟩ := write_long hlong hok
    exact ⟨(by decide : 1 < 2 ^ 16).trans_le hlong, _, hfirst, hsecond⟩

/-- **A long run shows where the stream was cut**: there are two windows that fail. -/
theorem exists_cut_failed : ∀ {items : List Item} {s : Sheet}, s.readsShort k items = false →
    ∃ n m, 0 < n ∧ n + m = (bytesOf items).length ∧
      ∃ s' rest, s.lex k n items = (.going s', rest) ∧ (s'.lex k m rest).1 = .failed .headerTooLarge
  | [], _, hlong => absurd hlong.symm Bool.false_ne_true
  | i :: items, s, hlong => by
      have hlen : (bytesOf (i :: items)).length = i.bytes.length + (bytesOf items).length := by
        rw [bytesOf_cons, length_append]
      rw [hlen]
      obtain ⟨s', hstep⟩ : ∃ s', s.step k i = .going s' := by
        rw [readsShort] at hlong
        cases hstep : s.step k i with
        | going s' => exact ⟨s', rfl⟩
        | headed | failed =>
          rw [hstep] at hlong
          cases hlong
      have hclosed : i ≠ .closed := by
        rintro rfl
        cases hstep
      rw [readsShort_cons hstep] at hlong
      cases hi : i.short with
      | true =>
        -- the cut is further on
        rw [hi, Bool.true_and] at hlong
        obtain ⟨n, m, hn, hnm, s'', rest, hcut, hfail⟩ := exists_cut_failed hlong
        refine ⟨i.bytes.length + n, m, by omega, by omega, s'', rest, ?_, hfail⟩
        rw [lex_eat (fun h => absurd h.1 (by omega))
          (Item.endsIn_of_le hclosed (Nat.le_add_right _ _)), hstep,
          Nat.add_sub_cancel_left]
        exact hcut
      | false =>
        obtain ⟨hone, s₁, htake, hfail⟩ := step_long (k := k) hi (by rw [hstep]; rintro _ ⟨⟩)
        refine ⟨1, i.bytes.length + (bytesOf items).length - 1, one_pos,
          by omega, s₁, i.drop 1 :: items, ?_, ?_⟩
        · rw [lex_cut (by simp) (fun h => by have := Item.length_le_of_endsIn h; omega), htake]
        · rw [lex_eat (by omega) (Item.endsIn_drop (by omega) hone), hfail]

end Sheet

end Cornet.Http
