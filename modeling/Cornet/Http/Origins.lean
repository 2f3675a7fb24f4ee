import Cornet.Http.FieldNames

/-!
# Http/Origins — which texts are taken for the same one

    'A' 'a'     differ in the case bit, and in case
    '^' '~'     differ in the case bit

`iequals` compares bytes with the case bit set.  Two bytes it identifies are equal, the two cases of
a letter, or twins: bytes that are no letters and differ in that bit.  So two texts are wrongly
taken for one exactly when some position has twins and all the others agree (`Confused`), and two
urls name one origin wrongly exactly when their hosts are confused and the rest agrees.
-/

namespace Cornet.Http

open List

open List (Forall₂)

/-! ## Bytes -/

/-- Two bytes that are no letters and differ in the case bit. -/
def Twins (x y : Byte) : Prop := isLetter x = false ∧ y = x ^^^ 0x20

instance (x y : Byte) : Decidable (Twins x y) := inferInstanceAs (Decidable (_ ∧ _))

/-- Setting the case bit identifies a byte with the one that differs in it. -/
theorem or_case_eq_iff {x y : Byte} : x ||| 0x20 = y ||| 0x20 ↔ y = x ∨ y = x ^^^ 0x20 := by
  have hflip : ∀ x : Fin 256, (UInt8.ofNat x ^^^ 0x20) ||| 0x20 = UInt8.ofNat x ||| 0x20 := by
    decide +kernel
  have hxor : ∀ x : Fin 256, UInt8.ofNat x ^^^ 0x20 ^^^ 0x20 = UInt8.ofNat x := by decide +kernel
  constructor
  · intro h
    have hx := eq_or_of_case x
    have hy := eq_or_of_case y
    rw [← h] at hy
    generalize x ||| 0x20 = z at hx hy
    have hz := forall_byte (P := fun z => z ^^^ 0x20 ^^^ 0x20 = z) hxor z
    rcases hx with rfl | rfl <;> rcases hy with rfl | rfl
    · exact .inl rfl
    · exact .inr rfl
    · exact .inr hz.symm
    · exact .inl rfl
  · rintro (rfl | rfl)
    · rfl
    · exact (forall_byte (P := fun x => (x ^^^ 0x20) ||| 0x20 = x ||| 0x20) hflip x).symm

/-- The other case of a letter is the same letter; the twin of anything else is not. -/
theorem asciiLower_flip (x : Byte) : asciiLower x = asciiLower (x ^^^ 0x20) ↔
    isLetter x = true := by
  have hall : ∀ x : Fin 256, asciiLower (.ofNat x) = asciiLower (UInt8.ofNat x ^^^ 0x20) ↔
      isLetter (.ofNat x) = true := by
    decide +kernel
  exact forall_byte (P := fun x => asciiLower x = asciiLower (x ^^^ 0x20) ↔ isLetter x = true) hall
    x

theorem Twins.asciiLower_ne {x y : Byte} (h : Twins x y) : asciiLower x ≠ asciiLower y := by
  obtain ⟨hx, rfl⟩ := h
  rw [Ne, asciiLower_flip, hx]
  exact Bool.false_ne_true

/-- **What `iequals` identifies**: the cases of one letter, and twins. -/
theorem or_case_eq_iff_fold_or_twins {x y : Byte} :
    x ||| 0x20 = y ||| 0x20 ↔ asciiLower x = asciiLower y ∨ Twins x y := by
  constructor
  · intro h
    rcases or_case_eq_iff.mp h with rfl | rfl
    · exact .inl rfl
    · cases hx : isLetter x with
      | true => exact .inl ((asciiLower_flip x).mpr hx)
      | false => exact .inr ⟨hx, rfl⟩
  · rintro (h | ⟨-, rfl⟩)
    · rw [← or_asciiLower x, h, or_asciiLower]
    · exact or_case_eq_iff.mpr (.inr rfl)

/-! ## Texts -/

/-- **Two texts that look alike**: of one length, with twins somewhere and the same byte but for
case everywhere else. -/
def Confused (a b : List Byte) : Prop :=
  Forall₂ (fun x y => asciiLower x = asciiLower y ∨ Twins x y) a b ∧ ∃ p ∈ a.zip b, Twins p.1 p.2

theorem iequals_iff_forall₂ {a b : List Byte} : iequals a b = true ↔
    Forall₂ (fun x y => asciiLower x = asciiLower y ∨ Twins x y) a b := by
  simp only [← or_case_eq_iff_fold_or_twins]
  rw [iequals, beq_iff_eq, lowered, lowered, ← forall₂_eq_eq_eq, forall₂_map_left_iff,
    forall₂_map_right_iff]

theorem sameFold_iff_forall₂ {a b : List Byte} :
    SameFold a b ↔ Forall₂ (fun x y => asciiLower x = asciiLower y) a b := by
  rw [SameFold, ← forall₂_eq_eq_eq, forall₂_map_left_iff, forall₂_map_right_iff]

theorem iequals_iff {a b : List Byte} : iequals a b = true ↔ SameFold a b ∨ Confused a b := by
  rw [iequals_iff_forall₂, sameFold_iff_forall₂]
  constructor
  · intro h
    by_cases hall : ∃ p ∈ a.zip b, Twins p.1 p.2
    · exact .inr ⟨h, hall⟩
    · rw [forall₂_iff_zip] at h ⊢
      exact .inl ⟨h.1, fun {x y} hxy => (h.2 hxy).resolve_right fun ht => hall ⟨(x, y), hxy, ht⟩⟩
  · rintro (h | h)
    · exact h.imp fun _ _ => .inl
    · exact h.1

theorem Confused.not_sameFold {a b : List Byte} (h : Confused a b) : ¬ SameFold a b := by
  obtain ⟨-, p, hp, htwins⟩ := h
  rw [sameFold_iff_forall₂, forall₂_iff_zip]
  intro hfold
  exact htwins.asciiLower_ne (hfold.2 hp)

/-- The two agree on two texts unless these are confused. -/
theorem iequals_iff_sameFold_iff {a b : List Byte} :
    (iequals a b = true ↔ SameFold a b) ↔ ¬ Confused a b := by
  rw [iequals_iff]
  have := @Confused.not_sameFold a b
  tauto

theorem isLetter_flip (x : Byte) : isLetter (x ^^^ 0x20) = isLetter x := by
  have hall : ∀ x : Fin 256, isLetter (UInt8.ofNat x ^^^ 0x20) = isLetter (.ofNat x) :=
    by decide +kernel
  exact forall_byte (P := fun x => isLetter (x ^^^ 0x20) = isLetter x) hall x

/-- A word of letters is not confused with anything. -/
theorem sameFold_of_letters {a b : List Byte} (hb : ∀ y ∈ b, isLetter y = true)
    (h : iequals a b = true) :
    SameFold a b := by
  refine (iequals_iff.mp h).resolve_right ?_
  rintro ⟨-, ⟨x, y⟩, hxy, hletter, hflip⟩
  have hy := hb y (of_mem_zip hxy).2
  rw [show y = x ^^^ 0x20 from hflip, isLetter_flip] at hy
  exact Bool.false_ne_true (hletter.symm.trans hy)

/-! ## Urls -/

/-- In a host, only some bytes have a twin. -/
theorem Twins.confusable {x y : Byte} (h : Twins x y) (hx : Url.hostByte x = true)
    (hy : Url.hostByte y = true) : confusable x = true := by
  obtain ⟨hletter, rfl⟩ := h
  by_contra hplain
  have hcase := asciiLower_case hx hy (.inl (by simpa using hplain))
  exact Bool.false_ne_true (hletter.symm.trans ((asciiLower_flip x).mp hcase))

theorem Confused.exists_confusable {a b : List Byte} (h : Confused a b)
    (ha : a.all Url.hostByte = true)
    (hb : b.all Url.hostByte = true) : ∃ x ∈ a, confusable x = true := by
  obtain ⟨-, ⟨x, y⟩, hxy, htwins⟩ := h
  obtain ⟨hx, hy⟩ := of_mem_zip hxy
  exact ⟨x, hx, htwins.confusable (all_eq_true.mp ha x hx) (all_eq_true.mp hb y hy)⟩

/-- **Comparing without case, and origins.**  Two byte strings are equal for `iequals` exactly when
they are equal but for the case of letters, unless they are confused; so `same_origin` is right
about two urls unless their hosts are confused and scheme and port are the same, and always right
about a host without one of `[]^{}~`. -/
theorem sameOrigin_iff_of_not_confused (a b : List Byte) :
    ((iequals a b = true ↔ SameFold a b) ↔ ¬ Confused a b) ∧
      ∀ (raw raw' : List Byte) (u v : Url), Url.parse raw = .ok u → Url.parse raw' = .ok v →
        ((u.sameOrigin v = true ↔ u.SameOrigin v) ↔
          ¬ (u.scheme = v.scheme ∧ u.port = v.port ∧ Confused u.host v.host)) ∧
        ((∀ x ∈ u.host, confusable x = false) → (u.sameOrigin v = true ↔ u.SameOrigin v)) := by
  refine ⟨iequals_iff_sameFold_iff, fun raw raw' u v hu hv => ?_⟩
  have hiff : (u.sameOrigin v = true ↔ u.SameOrigin v) ↔
      ¬ (u.scheme = v.scheme ∧ u.port = v.port ∧ Confused u.host v.host) := by
    have hhost := @iequals_iff_sameFold_iff u.host v.host
    simp only [Url.sameOrigin, Url.SameOrigin, Bool.and_eq_true, beq_iff_eq]
    tauto
  refine ⟨hiff, fun hplain => hiff.mpr ?_⟩
  rintro ⟨-, -, hconf⟩
  obtain ⟨x, hx, hc⟩ :=
    hconf.exists_confusable (Url.validHost_of_parse hu) (Url.validHost_of_parse hv)
  exact Bool.false_ne_true ((hplain x hx).symm.trans hc)

/-- Two spellings of one origin. -/
theorem sameOrigin_iff_example :
    (Url.mk (ascii "ex.COM") (ascii "ex.COM") [] (ascii "/") [] .http 80 false false).SameOrigin
      (Url.mk (ascii "EX.com:80") (ascii "EX.com") [] [] [] .http 80 true false) :=
  (((sameOrigin_iff_of_not_confused [] []).2 (ascii "http://ex.COM/") (ascii "http://EX.com:80") _ _
    (by decide +kernel)
    (by decide +kernel)).2 (by decide +kernel)).mp (by decide)

/-- **Two hosts that are taken for one**: `a^b` and `a~b`. -/
theorem caret_taken_for_tilde :
    (iequals (ascii "^") (ascii "~") = true ∧ ¬ SameFold (ascii "^") (ascii "~")) ∧
      ∃ u v, Url.parse (ascii "http://a^b/") = .ok u ∧ Url.parse (ascii "http://a~b/") = .ok v ∧
        u.sameOrigin v = true ∧ ¬ u.SameOrigin v :=
  ⟨by decide, _, _, rfl, rfl, by decide, by decide⟩

end Cornet.Http
