import Cornet.Http.Url

/-!
# Http/FieldNames — the names `field_from_name` recognizes

    T r a n s f e r - E n c o d i n g
    └── word ─────┘   └── word ─────┘          the ninth of seventeen bytes is in neither

A name is compared word by word with the case bit set: `Recognized` is what this is meant to decide.
The case bit confuses no two token characters that a field name could be confused by, and two words
cover every name of at most sixteen bytes.  Two names of the table have seventeen.
-/

namespace Cornet.Http

open List

/-! ## The case bit -/

def isLetter (b : Byte) : Bool := (0x41 ≤ b && b ≤ 0x5a) || (0x61 ≤ b && b ≤ 0x7a)

/-- The characters of an HTTP token. -/
def isToken (b : Byte) : Bool := isLetter b || isDigit b || b ∈ ascii "!#$%&'*+-.^_`|~"

/-- The characters the names of the table are made of. -/
def isNameByte (b : Byte) : Bool := isLetter b || b == 0x2d

/-- Of two bytes that differ in the case bit, a token character and one of a name are the cases of a
letter. -/
theorem asciiLower_token {z : Byte} (h : isToken z = true ∧ isNameByte (z ^^^ 0x20) = true ∨
    isNameByte z = true ∧ isToken (z ^^^ 0x20) = true) : asciiLower z = asciiLower
      (z ^^^ 0x20) := by
  have hall : ∀ z : Fin 256, isToken (.ofNat z) = true ∧
    isNameByte (UInt8.ofNat z ^^^ 0x20) = true ∨
      isNameByte (.ofNat z) = true ∧ isToken (UInt8.ofNat z ^^^ 0x20) = true →
      asciiLower (.ofNat z) = asciiLower (UInt8.ofNat z ^^^ 0x20) := by
    decide +kernel
  exact forall_byte (P := fun z => isToken z = true ∧ isNameByte (z ^^^ 0x20) = true ∨
    isNameByte z = true ∧ isToken (z ^^^ 0x20) = true → asciiLower z = asciiLower (z ^^^ 0x20)) hall
      z h

theorem or_eq_iff {x y : Byte} (hx : isToken x = true) (hy : isNameByte y = true) :
    x ||| 0x20 = y ||| 0x20 ↔ asciiLower x = asciiLower y := by
  constructor
  · intro h
    have hx' := eq_or_of_case x
    have hy' := eq_or_of_case y
    rw [← h] at hy'
    generalize x ||| 0x20 = z at hx' hy'
    rcases hx' with rfl | rfl <;> rcases hy' with rfl | rfl
    · rfl
    · exact asciiLower_token (.inl ⟨hx, hy⟩)
    · exact (asciiLower_token (.inr ⟨hy, hx⟩)).symm
    · rfl
  · intro h
    rw [← or_asciiLower x, h, or_asciiLower y]

/-- **On tokens the case bit decides equality up to case.** -/
theorem lowered_eq_iff : ∀ {a b : List Byte}, (∀ x ∈ a, isToken x = true) →
    (∀ y ∈ b, isNameByte y = true) →
    (lowered a = lowered b ↔ SameFold a b)
  | [], [], _, _ => iff_of_true rfl rfl
  | [], _ :: _, _, _ => by simp [lowered, SameFold]
  | _ :: _, [], _, _ => by simp [lowered, SameFold]
  | x :: a, y :: b, ha, hb => by
      have ih := lowered_eq_iff (fun z hz => ha z (mem_cons_of_mem x hz))
        fun z hz => hb z (mem_cons_of_mem y hz)
      have hhead := or_eq_iff (ha x mem_cons_self) (hb y mem_cons_self)
      simp only [lowered, SameFold, map_cons, List.cons.injEq] at ih ⊢
      rw [hhead, ih]

/-! ## Two words -/

theorem sameWords_iff {name lit : List Byte} :
    sameWords name lit = true ↔ name.length = lit.length ∧ lowered (name.take 8) = lowered
      (lit.take 8) ∧
      lowered (name.drop (lit.length - 8)) = lowered (lit.drop (lit.length - 8)) := by
  simp only [sameWords, Bool.and_eq_true, beq_iff_eq, and_assoc]

theorem sameWords_of_lowered {name lit : List Byte} (h : lowered name = lowered lit) :
    sameWords name lit = true := by
  have hlen : name.length = lit.length := by simpa [lowered] using congrArg List.length h
  refine sameWords_iff.mpr ⟨hlen, ?_, ?_⟩
  · rw [lowered, map_take, ← lowered, h, lowered, ← map_take, lowered]
  · rw [lowered, map_drop, ← lowered, h, lowered, ← map_drop, lowered]

/-- Two names that match a third one match each other. -/
theorem sameWords_trans {name lit lit' : List Byte} (h : sameWords name lit = true)
    (h' : sameWords name lit' = true) : sameWords lit lit' = true := by
  obtain ⟨h₁, h₂, h₃⟩ := sameWords_iff.mp h
  obtain ⟨h₁', h₂', h₃'⟩ := sameWords_iff.mp h'
  have hlen : lit.length = lit'.length := h₁.symm.trans h₁'
  exact sameWords_iff.mpr ⟨hlen, h₂.symm.trans h₂', by rw [← h₃', ← hlen, h₃]⟩

/-- **The two words cover a name of at most sixteen bytes.** -/
theorem sameWords_short {name lit : List Byte} (hlit : lit.length ≤ 16) :
    sameWords name lit = true ↔ lowered name = lowered lit := by
  refine ⟨fun h => ?_, sameWords_of_lowered⟩
  obtain ⟨-, hfirst, hlast⟩ := sameWords_iff.mp h
  have hcut (l : List Byte) :
      lowered l = lowered (l.take 8) ++ (lowered (l.drop (lit.length - 8))).drop
        (8 - (lit.length - 8)) := by
    rw [lowered, lowered, lowered, ← map_drop, ← map_append, drop_drop,
      Nat.add_sub_cancel' (by omega), take_append_drop]
  rw [hcut name, hcut lit, hfirst, hlast]

/-! ## The table -/

/-- Looking up the one entry that can answer. -/
theorem find_eq_iff {α β : Type*} {p : α → Bool} {g : α → β} {d : β} {l : List α} {e : α}
    (he : e ∈ l)
    (hd : g e ≠ d) (hg : ∀ e' ∈ l, g e' = g e → e' = e)
      (hp : ∀ e' ∈ l, p e' = true → p e = true → e' = e) :
    ((l.find? p).map g).getD d = g e ↔ p e = true := by
  cases hfind : l.find? p with
  | none => exact iff_of_false (fun h => hd h.symm) (find?_eq_none.mp hfind e he)
  | some e' =>
    have hmem := mem_of_find?_eq_some hfind
    have hfound := find?_some hfind
    constructor
    · intro h
      exact hg e' hmem h ▸ hfound
    · intro h
      exact congrArg g (hp e' hmem hfound h)

theorem table_spec : ∀ e ∈ kFieldNames, lowered (ascii e.1) = lowered e.2.bytes ∧ e.2 ≠ .other := by
  decide +kernel

/-- No two entries of the table match, and none has another's field. -/
theorem table_inj : ∀ e ∈ kFieldNames, ∀ e' ∈ kFieldNames,
    sameWords (ascii e.1) (ascii e'.1) = true ∨ e.2 = e'.2 → e = e' := by
  decide +kernel

theorem exists_entry {f : Field} (hf : f ≠ .other) : ∃ e ∈ kFieldNames, e.2 = f := by
  cases f <;> first | exact absurd rfl hf | decide +kernel

/-- **A name is taken for the field whose words it has.** -/
theorem fieldFromName_eq_iff {name : List Byte} {f : Field} (hf : f ≠ .other) :
    fieldFromName name = f ↔ sameWords name f.bytes = true := by
  obtain ⟨e, he, rfl⟩ := exists_entry hf
  have hfields (e' : String × Field) (he' : e' ∈ kFieldNames) (h : e'.2 = e.2) : e' = e :=
    table_inj e' he' e he (.inr h)
  have hwords (e' : String × Field) (he' : e' ∈ kFieldNames)
    (h : sameWords name (ascii e'.1) = true)
      (h' : sameWords name (ascii e.1) = true) : e' = e :=
    table_inj e' he' e he (.inl (sameWords_trans h h'))
  have hfind : fieldFromName name = e.2 ↔ sameWords name (ascii e.1) = true :=
    find_eq_iff he hf hfields hwords
  rw [hfind, sameWords_iff, sameWords_iff]
  have hlow := (table_spec e he).1
  have hlen : (ascii e.1).length = e.2.bytes.length :=
    by simpa [lowered] using congrArg List.length hlow
  have htake : lowered ((ascii e.1).take 8) = lowered (e.2.bytes.take 8) := by
    rw [lowered, map_take, ← lowered, hlow, lowered, ← map_take, lowered]
  have hdrop (n : ℕ) : lowered ((ascii e.1).drop n) = lowered (e.2.bytes.drop n) := by
    rw [lowered, map_drop, ← lowered, hlow, lowered, ← map_drop, lowered]
  rw [hlen, htake, hdrop]

/-- Every name of the table is recognized. -/
theorem fieldFromName_bytes (f : Field) : fieldFromName f.bytes = f := by
  by_cases hf : f = .other
  · rw [hf]
    decide
  · exact (fieldFromName_eq_iff hf).mpr (sameWords_of_lowered rfl)

/-! ## What is recognized -/

/-- **A name means the field it is the name of, whatever its case**, and means none if it is no
field's name. -/
def Recognized (name : List Byte) : Prop :=
  (∀ f : Field, f ≠ .other → (fieldFromName name = f ↔ SameFold name f.bytes)) ∧
    ((∀ f : Field, f ≠ .other → ¬ SameFold name f.bytes) → fieldFromName name = .other)

/-- A name with the sixteen compared bytes of a longer one has its ninth byte as well. -/
def NinthAgrees (name : List Byte) : Prop :=
  ∀ f ∈ [Field.transferEncoding, .ifModifiedSince], name.length = 17 →
    SameFold (name.take 8) (f.bytes.take 8) → SameFold (name.drop 9) (f.bytes.drop 9) →
    SameFold ((name.drop 8).take 1) ((f.bytes.drop 8).take 1)

instance (name : List Byte) : Decidable (NinthAgrees name) :=
  inferInstanceAs (Decidable (∀ f ∈ [Field.transferEncoding, .ifModifiedSince], _ → _ → _ → _))

theorem isNameByte_bytes (f : Field) : ∀ y ∈ f.bytes, isNameByte y = true := by
  cases f <;> decide +kernel

/-- Only two fields have longer names. -/
theorem length_bytes (f : Field) :
    f.bytes.length ≤ 16 ∨ f ∈ [Field.transferEncoding, .ifModifiedSince] ∧ f.bytes.length = 17 := by
  cases f <;> decide +kernel

theorem sameFold_pieces {a b : List Byte} (h : a.length = b.length) :
    SameFold a b ↔ SameFold (a.take 8) (b.take 8) ∧ SameFold ((a.drop 8).take 1)
      ((b.drop 8).take 1) ∧
      SameFold (a.drop 9) (b.drop 9) := by
  have hcut (l : List Byte) : l = l.take 8 ++ ((l.drop 8).take 1 ++ l.drop 9) := by
    rw [← drop_drop (i := 1) (j := 8), take_append_drop, take_append_drop]
  have hmap (l : List Byte) :
      l.map asciiLower = (l.take 8).map asciiLower ++ (((l.drop 8).take 1).map asciiLower ++
        (l.drop 9).map asciiLower) := by
    rw [← map_append, ← map_append, ← hcut l]
  constructor
  · intro hfold
    rw [SameFold, hmap a, hmap b] at hfold
    obtain ⟨hfirst, hrest⟩ := append_inj hfold (by simp [h])
    exact ⟨hfirst, append_inj hrest (by simp [h])⟩
  · rintro ⟨hfirst, hninth, hlast⟩
    rw [SameFold, hmap a, hmap b, hfirst, hninth, hlast]

/-- **Two words, up to case.**  All that is not compared is the ninth byte of a longer name. -/
theorem sameWords_token {name : List Byte} (h : ∀ x ∈ name, isToken x = true) (f : Field) :
    sameWords name f.bytes = true ↔ name.length = f.bytes.length ∧
      SameFold (name.take 8) (f.bytes.take 8) ∧
      SameFold (name.drop (f.bytes.length - 8)) (f.bytes.drop (f.bytes.length - 8)) := by
  have hname := isNameByte_bytes f
  rw [sameWords_iff, lowered_eq_iff (fun x hx => h x (mem_of_mem_take hx))
      fun y hy => hname y (mem_of_mem_take hy),
    lowered_eq_iff (fun x hx => h x (mem_of_mem_drop hx)) fun y hy => hname y (mem_of_mem_drop hy)]

/-- **A token is recognized exactly where its ninth byte agrees.** -/
theorem recognized_iff_ninthAgrees {name : List Byte} (h : ∀ x ∈ name, isToken x = true) :
    Recognized name ↔ NinthAgrees name := by
  constructor
  · rintro ⟨hrec, -⟩ f hf hlen hfirst hlast
    have hlong : ∀ f ∈ [Field.transferEncoding, .ifModifiedSince], f ≠ .other ∧
      f.bytes.length = 17 := by
      decide +kernel
    obtain ⟨hne, hlen'⟩ := hlong f hf
    have hwords : sameWords name f.bytes = true :=
      (sameWords_token h f).mpr ⟨hlen.trans hlen'.symm, hfirst, by rwa [hlen']⟩
    have hfold := (hrec f hne).mp ((fieldFromName_eq_iff hne).mpr hwords)
    exact ((sameFold_pieces (hlen.trans hlen'.symm)).mp hfold).2.1
  · intro hninth
    have hrec (f : Field) (hf : f ≠ .other) : fieldFromName name = f ↔ SameFold name f.bytes := by
      rw [fieldFromName_eq_iff hf]
      rcases length_bytes f with hle | ⟨hmem, hlen⟩
      · rw [sameWords_short hle, lowered_eq_iff h (isNameByte_bytes f)]
      · refine ⟨fun hwords => ?_, fun hfold => sameWords_of_lowered hfold.lowered_eq⟩
        obtain ⟨hlen', hfirst, hlast⟩ := (sameWords_token h f).mp hwords
        rw [hlen] at hlast
        exact (sameFold_pieces hlen').mpr ⟨hfirst, hninth f hmem (hlen'.trans hlen) hfirst hlast,
          hlast⟩
    refine ⟨hrec, fun hnone => ?_⟩
    by_contra hne
    exact hnone _ hne ((hrec _ hne).mp rfl)

/-- The condition is met by a name in any case. -/
theorem recognized_iff_ninthAgrees_teName :
    (∀ x ∈ ascii "TRANSFER-encoding", isToken x = true) ∧
      Recognized (ascii "TRANSFER-encoding") := by
  have htoken : ∀ x ∈ ascii "TRANSFER-encoding", isToken x = true := by decide +kernel
  exact ⟨htoken, (recognized_iff_ninthAgrees htoken).mpr (by decide +kernel)⟩

/-- **A token that is no field's name is taken for `Transfer-Encoding`.** -/
theorem underscore_is_transferEncoding :
    (∀ x ∈ ascii "transfer_encoding", isToken x = true) ∧
      fieldFromName (ascii "transfer_encoding") = .transferEncoding ∧
      ¬ SameFold (ascii "transfer_encoding") (Field.bytes .transferEncoding) ∧
      ¬ Recognized (ascii "transfer_encoding") := by
  have hfrom : fieldFromName (ascii "transfer_encoding") = .transferEncoding := by decide +kernel
  have hfold : ¬ SameFold (ascii "transfer_encoding") (Field.bytes .transferEncoding) :=
    by decide +kernel
  refine ⟨by decide +kernel, hfrom, hfold, fun hrec => ?_⟩
  exact hfold ((hrec.1 .transferEncoding (by decide)).mp hfrom)

end Cornet.Http
