import Mathlib.Tactic

/-!
# Machinery/Coro — coroutines that keep a state, fail, and loop

    m : σ ⟶ σ × (a | error e | not yet)          m >>= f          loop body n b

A coroutine works on a state and returns, or fails.  Its loops are given a number of turns; one that
has used them up has not returned yet.  Five ways to reason about them, each with a rule for
sequencing and a rule for loops:

* `Triple P m Q E` — from `P`, a return establishes `Q` and a failure `E` (the loop rule is an
invariant); * `Finishes m s Q` — it returns or fails, and a return establishes `Q` (the loop rule
adds a variant); * `Stays m s I Q` — wherever it stops `I` holds, and a return establishes `Q`; *
`Moves R m` — wherever it is when it stops, returned or not, `R` leads there; * `Erases φ m m' t` —
it does what `m'` does, and more that `φ` forgets.
-/

namespace Cornet

/-- A computation over states of type `σ`; `error none` is one that has not returned yet. -/
def Coro (σ ε α : Type) : Type := σ → σ × Except (Option ε) α

namespace Coro

variable {σ ε α β γ : Type}

instance : Monad (Coro σ ε) where
  pure a := fun s => (s, .ok a)
  bind m f := fun s =>
    match m s with
    | (t, .ok a) => f a t
    | (t, .error e) => (t, .error e)

def fail (e : ε) : Coro σ ε α := fun s => (s, .error (some e))

def get : Coro σ ε σ := fun s => (s, .ok s)

def modify (f : σ → σ) : Coro σ ε Unit := fun s => (f s, .ok ())

/-- A failure becomes a value. -/
def attempt (m : Coro σ ε α) : Coro σ ε (Except ε α) := fun s =>
  match m s with
  | (t, .ok a) => (t, .ok (.ok a))
  | (t, .error (some e)) => (t, .ok (.error e))
  | (t, .error none) => (t, .error none)

/-- `for (;;)` with a local variable: at most `n` turns of `body`. -/
def loop (body : β → Coro σ ε (β ⊕ γ)) : ℕ → β → Coro σ ε γ
  | 0, _ => fun s => (s, .error none)
  | n + 1, b => fun s =>
    match body b s with
    | (t, .ok (.inl b)) => loop body n b t
    | (t, .ok (.inr c)) => (t, .ok c)
    | (t, .error e) => (t, .error e)

/-! ## Running -/

variable {m : Coro σ ε α} {f : α → Coro σ ε β} {body : β → Coro σ ε (β ⊕ γ)} {n : ℕ} {s t : σ}
  {a : α} {b b' : β} {c : γ}
  {e : Option ε}

theorem bind_ok (h : m s = (t, .ok a)) : (m >>= f) s = f a t := by
  change (match m s with | (t, .ok a) => f a t | (t, .error e) => (t, .error e)) = _
  rw [h]

theorem bind_error (h : m s = (t, .error e)) : (m >>= f) s = (t, .error e) := by
  change (match m s with | (t, .ok a) => f a t | (t, .error e) => (t, .error e)) = _
  rw [h]

theorem of_bind_ok (h : (m >>= f) s = (t, .ok b)) : ∃ s' a, m s = (s', .ok a) ∧
    f a s' = (t, .ok b) := by
  rcases hm : m s with ⟨s', _ | a⟩
  · rw [bind_error hm] at h
    cases h
  · exact ⟨s', a, rfl, (bind_ok hm).symm.trans h⟩

theorem attempt_ok (h : m s = (t, .ok a)) : attempt m s = (t, .ok (.ok a)) := by
  rw [attempt, h]

theorem attempt_error {e : ε} (h : m s = (t, .error (some e))) : attempt m
    s = (t, .ok (.error e)) := by
  rw [attempt, h]

theorem attempt_none (h : m s = (t, .error none)) : attempt m s = (t, .error none) := by
  rw [attempt, h]

theorem loop_next (h : body b s = (t, .ok (.inl b'))) : loop body (n + 1) b s = loop body n b'
    t := by
  rw [loop]
  simp only [h]

theorem loop_exit (h : body b s = (t, .ok (.inr c))) : loop body (n + 1) b s = (t, .ok c) := by
  rw [loop]
  simp only [h]

theorem loop_error (h : body b s = (t, .error e)) : loop body (n + 1) b s = (t, .error e) := by
  rw [loop]
  simp only [h]

/-! ## Partial correctness -/

/-- What holds where a coroutine has ended. -/
def Post (Q : α → σ → Prop) (E : ε → σ → Prop) : σ × Except (Option ε) α → Prop
  | (t, .ok a) => Q a t
  | (t, .error (some e)) => E e t
  | (_, .error none) => True

/-- From `P`, a return establishes `Q` and a failure `E`. -/
def Triple (P : σ → Prop) (m : Coro σ ε α) (Q : α → σ → Prop) (E : ε → σ → Prop) : Prop :=
  ∀ s, P s → Post Q E (m s)

variable {P P' : σ → Prop} {Q Q' : α → σ → Prop} {S : β → σ → Prop} {E E' : ε → σ → Prop}
  {g : σ → σ}

theorem Triple.mono (h : Triple P m Q E) (hP : ∀ s, P' s → P s) (hQ : ∀ a s, Q a s → Q' a s)
    (hE : ∀ e s, E e s → E' e s) : Triple P' m Q' E' := by
  intro s hs
  have hpost := h s (hP s hs)
  generalize m s = r at hpost
  match r with
  | (t, .ok a) => exact hQ a t hpost
  | (t, .error (some e)) => exact hE e t hpost
  | (t, .error none) => trivial

theorem triple_pure (h : ∀ s, P s → Q a s) : Triple P (pure a : Coro σ ε α) Q E := h

theorem triple_fail {e : ε} (h : ∀ s, P s → E e s) : Triple P (fail e : Coro σ ε α) Q E := h

theorem triple_get {Q : σ → σ → Prop} (h : ∀ s, P s → Q s s) : Triple P (get : Coro σ ε σ) Q E := h

theorem triple_modify {Q : Unit → σ → Prop} (h : ∀ s, P s → Q () (g s)) :
    Triple P (modify g : Coro σ ε Unit) Q E := h

theorem Triple.bind (h : Triple P m Q E) (hf : ∀ a, Triple (Q a) (f a) S E) : Triple P
    (m >>= f) S E := by
  intro s hs
  have hpost := h s hs
  change Post S E (match m s with | (t, .ok a) => f a t | (t, .error e) => (t, .error e))
  generalize m s = r at hpost
  match r with
  | (t, .ok a) => exact hf a t hpost
  | (t, .error (some e)) => exact hpost
  | (t, .error none) => trivial

/-- **The invariant rule.** -/
theorem triple_loop {I : β → σ → Prop} {Q : γ → σ → Prop}
    (hbody : ∀ b, Triple (I b) (body b) (fun r s => Sum.elim (I · s) (Q · s) r) E) :
    ∀ n b, Triple (I b) (loop body n b) Q E
  | 0, _ => fun _ _ => trivial
  | n + 1, b => by
      intro s hs
      have hturn := hbody b s hs
      rw [loop]
      dsimp only
      generalize body b s = r at hturn
      match r with
      | (t, .ok (.inl b')) => exact triple_loop hbody n b' t hturn
      | (t, .ok (.inr c)) => exact hturn
      | (t, .error (some e)) => exact hturn
      | (t, .error none) => trivial

/-! ## Coming to an end -/

/-- From `s` it comes to an end; a return establishes `Q`. -/
def Finishes (m : Coro σ ε α) (s : σ) (Q : α → σ → Prop) : Prop :=
  (m s).2 ≠ .error none ∧ ∀ t a, m s = (t, .ok a) → Q a t

theorem Finishes.mono (h : Finishes m s Q) (hQ : ∀ a t, Q a t → Q' a t) : Finishes m s Q' :=
  ⟨h.1, fun t a heq => hQ a t (h.2 t a heq)⟩

theorem finishes_pure (h : Q a s) : Finishes (pure a : Coro σ ε α) s Q := by
  refine ⟨nofun, fun t b heq => ?_⟩
  obtain ⟨rfl, hb⟩ := Prod.mk.inj heq
  exact Except.ok.inj hb ▸ h

theorem finishes_fail (e : ε) : Finishes (fail e : Coro σ ε α) s Q :=
  ⟨nofun, fun _ _ heq => nomatch (Prod.mk.inj heq).2⟩

theorem finishes_get_bind {f : σ → Coro σ ε β} (h : Finishes (f s) s S) : Finishes
    (get >>= f) s S := h

theorem finishes_modify_bind {f : Unit → Coro σ ε β} (h : Finishes (f ()) (g s) S) :
    Finishes (modify g >>= f) s S := h

theorem Finishes.bind (h : Finishes m s Q) (hf : ∀ a t, Q a t → Finishes (f a) t S) :
    Finishes (m >>= f) s S := by
  obtain ⟨hne, hok⟩ := h
  rw [Finishes]
  change (match m s with | (t, .ok a) => f a t | (t, .error e) => (t, .error e)).2 ≠ _ ∧
    ∀ t a, (match m s with | (t, .ok a) => f a t | (t, .error e) => (t, .error e)) = _ → _
  generalize m s = r at hne hok
  match r with
  | (t, .ok a) => exact hf a t (hok t a rfl)
  | (t, .error e) =>
    exact ⟨fun h => hne (by rw [Except.error.inj h]), fun _ _ heq => nomatch (Prod.mk.inj heq).2⟩

/-- **The variant rule**, for a loop that may also fail. -/
theorem finishes_loop {I : β → σ → Prop} {Q : γ → σ → Prop} {μ : β → σ → ℕ}
    (hbody : ∀ b s, I b s →
      Finishes (body b) s fun r t => Sum.elim (fun b' => I b' t ∧ μ b' t < μ b s) (Q · t) r) :
    ∀ n b s, I b s → μ b s < n → Finishes (loop body n b) s Q
  | 0, _, _, _, hn => absurd hn (Nat.not_lt_zero _)
  | n + 1, b, s, hs, hn => by
      obtain ⟨hne, hok⟩ := hbody b s hs
      rw [Finishes, loop]
      dsimp only
      generalize body b s = r at hne hok
      match r with
      | (t, .ok (.inl b')) =>
        obtain ⟨ht, hlt⟩ := hok t (.inl b') rfl
        exact finishes_loop hbody n b' t ht (by omega)
      | (t, .ok (.inr c)) =>
        refine ⟨nofun, fun u d heq => ?_⟩
        obtain ⟨rfl, hd⟩ := Prod.mk.inj heq
        exact Except.ok.inj hd ▸ hok t (.inr c) rfl
      | (t, .error e) =>
        exact ⟨fun h => hne (by rw [Except.error.inj h]), fun _ _ heq =>
          nomatch (Prod.mk.inj heq).2⟩

/-! ## Staying somewhere -/

/-- Wherever it is when it stops, returned or not, `I` holds there; a return establishes `Q`. -/
def Stays (m : Coro σ ε α) (s : σ) (I : σ → Prop) (Q : α → σ → Prop) : Prop :=
  I (m s).1 ∧ ∀ t a, m s = (t, .ok a) → Q a t

variable {I : σ → Prop}

theorem stays_pure (hI : I s) (hQ : Q a s) : Stays (pure a : Coro σ ε α) s I Q := by
  refine ⟨hI, fun t b heq => ?_⟩
  obtain ⟨rfl, hb⟩ := Prod.mk.inj heq
  exact Except.ok.inj hb ▸ hQ

theorem stays_fail (e : ε) (hI : I s) : Stays (fail e : Coro σ ε α) s I Q :=
  ⟨hI, fun _ _ heq => nomatch (Prod.mk.inj heq).2⟩

theorem stays_get_bind {f : σ → Coro σ ε β} (h : Stays (f s) s I S) : Stays (get >>= f) s I S := h

theorem stays_modify_bind {f : Unit → Coro σ ε β} (h : Stays (f ()) (g s) I S) :
    Stays (modify g >>= f) s I S := h

theorem Stays.bind (h : Stays m s I Q) (hf : ∀ a t, Q a t → Stays (f a) t I S) :
    Stays (m >>= f) s I S := by
  obtain ⟨hI, hok⟩ := h
  rw [Stays]
  change I (match m s with | (t, .ok a) => f a t | (t, .error e) => (t, .error e)).1 ∧
    ∀ t a, (match m s with | (t, .ok a) => f a t | (t, .error e) => (t, .error e)) = _ → _
  generalize m s = r at hI hok
  match r with
  | (t, .ok a) => exact hf a t (hok t a rfl)
  | (t, .error e) => exact ⟨hI, fun _ _ heq => nomatch (Prod.mk.inj heq).2⟩

theorem stays_attempt {Q : Except ε α → σ → Prop} (h : Stays m s I fun a => Q (.ok a))
    (hE : ∀ e t, I t → Q (.error e) t) : Stays (attempt m) s I Q := by
  obtain ⟨hI, hok⟩ := h
  rcases hm : m s with ⟨t, (_ | e) | a⟩
  · rw [Stays, attempt_none hm]
    rw [hm] at hI
    exact ⟨hI, fun _ _ heq => by cases heq⟩
  · rw [Stays, attempt_error hm]
    rw [hm] at hI
    refine ⟨hI, fun _ _ heq => ?_⟩
    cases heq
    exact hE e t hI
  · rw [Stays, attempt_ok hm]
    rw [hm] at hI
    refine ⟨hI, fun _ _ heq => ?_⟩
    cases heq
    exact hok t a hm

/-- **The invariant rule**, for what also holds when a loop is left in between. -/
theorem stays_loop {K : β → σ → Prop} {Q : γ → σ → Prop} (hK : ∀ b s, K b s → I s)
    (hbody : ∀ b s, K b s → Stays (body b) s I fun r t => Sum.elim (K · t) (Q · t) r) :
    ∀ n b s, K b s → Stays (loop body n b) s I Q
  | 0, b, s, hs => ⟨hK b s hs, fun _ _ heq => by cases heq⟩
  | n + 1, b, s, hs => by
      obtain ⟨hI, hok⟩ := hbody b s hs
      rcases hb : body b s with ⟨t, _ | b' | c⟩
      · rw [hb] at hI
        rw [Stays, loop_error hb]
        exact ⟨hI, fun _ _ heq => by cases heq⟩
      · rw [Stays, loop_next hb]
        exact stays_loop hK hbody n b' t (hok t _ hb)
      · rw [hb] at hI
        rw [Stays, loop_exit hb]
        refine ⟨hI, fun _ _ heq => ?_⟩
        cases heq
        exact hok t _ hb

/-! ## Going somewhere -/

variable {R : σ → σ → Prop}

/-- However it ends, the state it ends in is one `R` leads to. -/
def Moves (R : σ → σ → Prop) (m : Coro σ ε α) : Prop := ∀ s, R s (m s).1

theorem Moves.stays (h : Moves R m) (hI : ∀ t, R s t → I t) : Stays m s I fun _ t => R s t := by
  refine ⟨hI _ (h s), fun t a heq => ?_⟩
  have := h s
  rwa [heq] at this

theorem Moves.mono {R' : σ → σ → Prop} (h : Moves R m) (hR : ∀ s t, R s t → R' s t) : Moves R' m :=
  fun s => hR _ _ (h s)

theorem Moves.attempt (h : Moves R m) : Moves R (attempt m) := by
  intro s
  have hs := h s
  rw [Coro.attempt]
  split <;> rename_i hm <;> rwa [hm] at hs

section Moves

variable [IsPreorder σ R]

theorem moves_pure (a : α) : Moves R (pure a : Coro σ ε α) := fun s => refl s

theorem moves_fail (e : ε) : Moves R (fail e : Coro σ ε α) := fun s => refl s

theorem moves_get : Moves R (get : Coro σ ε σ) := fun s => refl s

omit [IsPreorder σ R] in
theorem moves_modify (h : ∀ s, R s (g s)) : Moves R (modify g : Coro σ ε Unit) := h

theorem Moves.bind (hm : Moves R m) (hf : ∀ a, Moves R (f a)) : Moves R (m >>= f) := by
  intro s
  have hs := hm s
  change R s (match m s with | (t, .ok a) => f a t | (t, .error e) => (t, .error e)).1
  generalize m s = r at hs
  match r with
  | (t, .ok a) => exact IsTrans.trans _ _ _ hs (hf a t)
  | (t, .error e) => exact hs

theorem moves_loop (hbody : ∀ b, Moves R (body b)) : ∀ n b, Moves R (loop body n b)
  | 0, _ => fun s => refl s
  | n + 1, b => by
      intro s
      have hs := hbody b s
      rw [loop]
      dsimp only
      generalize body b s = r at hs
      match r with
      | (t, .ok (.inl b')) => exact IsTrans.trans _ _ _ hs (moves_loop hbody n b' t)
      | (t, .ok (.inr c)) => exact hs
      | (t, .error e) => exact hs

end Moves

/-! ## Forgetting -/

section Forgetting

variable {τ : Type} {φ : τ → σ}

/-- From `t`, `m` does what `m'` does, and more that `φ` forgets. -/
def Erases (φ : τ → σ) (m : Coro τ ε α) (m' : Coro σ ε α) (t : τ) : Prop :=
  φ (m t).1 = (m' (φ t)).1 ∧ (m t).2 = (m' (φ t)).2

variable {m : Coro τ ε α} {m' : Coro σ ε α} {f : α → Coro τ ε β} {f' : α → Coro σ ε β} {t : τ}

theorem Erases.eq {s : σ} {r : Except (Option ε) α} (h : Erases φ m m' t) (hm : m' (φ t) = (s, r)) :
    ∃ t', m t = (t', r) ∧ φ t' = s := by
  obtain ⟨h₁, h₂⟩ := h
  rw [hm] at h₁ h₂
  exact ⟨(m t).1, Prod.ext rfl h₂, h₁⟩

theorem erases_pure (a : α) : Erases φ (pure a : Coro τ ε α) (pure a) t := ⟨rfl, rfl⟩

theorem erases_fail (e : ε) : Erases φ (fail e : Coro τ ε α) (fail e) t := ⟨rfl, rfl⟩

theorem erases_get_bind {f : τ → Coro τ ε α} {f' : σ → Coro σ ε α}
    (h : Erases φ (f t) (f' (φ t)) t) :
    Erases φ (get >>= f) (get >>= f') t := h

/-- A step that `φ` does not see. -/
theorem Erases.modify_bind {g : τ → τ} {f : Unit → Coro τ ε α} (hg : φ (g t) = φ t)
    (h : Erases φ (f ()) m' (g t)) :
    Erases φ (modify g >>= f) m' t := by
  rw [Erases, hg] at h
  exact h

theorem Erases.bind (h : Erases φ m m' t) (hf : ∀ a t, Erases φ (f a) (f' a) t) :
    Erases φ (m >>= f) (m' >>= f') t := by
  rcases hm : m' (φ t) with ⟨s, e | a⟩
  · obtain ⟨t', ht, rfl⟩ := h.eq hm
    rw [Erases, bind_error hm, bind_error ht]
    exact ⟨rfl, rfl⟩
  · obtain ⟨t', ht, rfl⟩ := h.eq hm
    rw [Erases, bind_ok hm, bind_ok ht]
    exact hf a t'

/-- …after `m`, too. -/
theorem Erases.tap {g : α → τ → τ} (h : Erases φ m m' t) (hg : ∀ a t, φ (g a t) = φ t) :
    Erases φ (m >>= fun a => modify (g a) >>= fun _ => pure a) m' t := by
  rcases hm : m' (φ t) with ⟨s, e | a⟩
  · obtain ⟨t', ht, rfl⟩ := h.eq hm
    rw [Erases, hm, bind_error ht]
    exact ⟨rfl, rfl⟩
  · obtain ⟨t', ht, rfl⟩ := h.eq hm
    rw [Erases, hm, bind_ok ht]
    exact ⟨hg a t', rfl⟩

theorem Erases.attempt (h : Erases φ m m' t) : Erases φ (attempt m) (attempt m') t := by
  rcases hm : m' (φ t) with ⟨s, (_ | e) | a⟩
  · obtain ⟨t', ht, rfl⟩ := h.eq hm
    rw [Erases, attempt_none hm, attempt_none ht]
    exact ⟨rfl, rfl⟩
  · obtain ⟨t', ht, rfl⟩ := h.eq hm
    rw [Erases, attempt_error hm, attempt_error ht]
    exact ⟨rfl, rfl⟩
  · obtain ⟨t', ht, rfl⟩ := h.eq hm
    rw [Erases, attempt_ok hm, attempt_ok ht]
    exact ⟨rfl, rfl⟩

theorem erases_loop {body : β → Coro τ ε (β ⊕ γ)} {body' : β → Coro σ ε (β ⊕ γ)}
    (hbody : ∀ b t, Erases φ (body b) (body' b) t) : ∀ n b t, Erases φ (loop body n b)
      (loop body' n b) t
  | 0, _, _ => ⟨rfl, rfl⟩
  | n + 1, b, t => by
      rcases hb : body' b (φ t) with ⟨s, e | b' | c⟩
      · obtain ⟨t', ht, rfl⟩ := (hbody b t).eq hb
        rw [Erases, loop_error hb, loop_error ht]
        exact ⟨rfl, rfl⟩
      · obtain ⟨t', ht, rfl⟩ := (hbody b t).eq hb
        rw [Erases, loop_next hb, loop_next ht]
        exact erases_loop hbody n b' t'
      · obtain ⟨t', ht, rfl⟩ := (hbody b t).eq hb
        rw [Erases, loop_exit hb, loop_exit ht]
        exact ⟨rfl, rfl⟩

end Forgetting

end Coro

end Cornet
