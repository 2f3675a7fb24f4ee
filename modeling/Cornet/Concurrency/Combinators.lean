import Cornet.Machinery.Run
import Cornet.Concurrency.Expected

/-!
# Concurrency/Combinators — `when_all` and `when_any` (`include/cornet/concurrency/combinators.h`)

    awaiter ──┐
    wrapper₁ ─┼──▸  shared state  { results , remaining | done , refs = N + 1 , continuation }
    wrapperₙ ─┘

Every wrapper runs one child to its end, writes the result, perhaps wakes the awaiting coroutine,
and gives up its reference; the awaiter gives up its own when its frame goes.  The count starts at
**N + 1**, but wrappers exist only once the awaiter has been awaited.

The state of both combinators is one record; `finished`, `resumes`, `frees` and `left` are for the
reader only.
-/

namespace Cornet.Combinators

open List

inductive Kind
  | all | any
  deriving DecidableEq, Repr

/-- The frame of the awaiter: not awaited, suspended, running again, destroyed. -/
inductive Stage
  | fresh | suspended | resumed | gone
  deriving DecidableEq, Repr

/-- How a child ends. -/
inductive Outcome (ρ : Type*)
  | value (r : Except Error ρ)
  | threw

/-- What is written for it. -/
def Outcome.slot {ρ : Type*} : Outcome ρ → Except Error ρ
  | .value r => r
  | .threw => .error .exception

/-- `when_all_state` and `when_any_state`, with the awaiter and the wrappers. -/
structure Shared (n : ℕ) (ρ : Type*) where
  results : Fin n → Option (Except Error ρ) := fun _ => none
  remaining : ℤ := n
  done : Bool := false
  /-- `none` is the source's `-1` -/
  completedIndex : Option (Fin n) := none
  refs : ℤ := n + 1
  /-- whether there is a handle -/
  continuation : Bool := false
  /-- whether `when_any` was given a canceler, and whether it was triggered -/
  canceler : Bool := false
  cancelled : Bool := false
  stage : Stage := .fresh
  launched : Bool := false
  /-- The children that have ended, in that order, with what is to be written for them. -/
  finished : List (Fin n × Except Error ρ) := []
  resumes : ℕ := 0
  frees : ℕ := 0
  /-- How many had ended when the awaiter was destroyed. -/
  left : Option ℕ := none

variable {n : ℕ} {ρ : Type*}

namespace Shared

variable (s : Shared n ρ)

/-- `if (--state->refs == 0) delete state`. -/
def unref : Shared n ρ :=
  { s with refs := s.refs - 1, frees := if s.refs - 1 = 0 then s.frees + 1 else s.frees }

/-- `if (to_wake) chain_to(self, to_wake)`: control goes to the awaiting coroutine. -/
def wake (toWake : Bool) : Shared n ρ :=
  if toWake then { s with stage := .resumed, resumes := s.resumes + 1 } else s

/-- The child of a wrapper has ended. -/
def ended (i : Fin n) (o : Outcome ρ) : Shared n ρ :=
  { s with finished := s.finished ++ [(i, o.slot)] }

/-- `when_all_task`. -/
def whenAllTask (i : Fin n) (o : Outcome ρ) : Shared n ρ :=
  let t := { s.ended i o with results := Function.update s.results i (some o.slot),
                              remaining := s.remaining - 1 }
  if t.remaining = 0 then ({ t with continuation := false }.unref).wake t.continuation else t.unref

/-- The results of losers are dropped. -/
def whenAnyTask (i : Fin n) (o : Outcome ρ) : Shared n ρ :=
  let t := s.ended i o
  if s.done then t.unref
  else
    ({ t with
        results := Function.update s.results i (some o.slot)
        done := true
        completedIndex := some i
        continuation := false
        cancelled := s.cancelled || s.canceler }.unref).wake s.continuation

def task : Kind → Fin n → Outcome ρ → Shared n ρ
  | .all => s.whenAllTask
  | .any => s.whenAnyTask

/-- `co_await`: the wrappers are scheduled; of no children there is nothing to wait for. -/
def await : Shared n ρ :=
  if n = 0 then { s with stage := .resumed }
  else { s with continuation := true, stage := .suspended, launched := true }

/-- `~awaiter`. -/
def destroy : Shared n ρ :=
  { s with continuation := false, stage := .gone, left := some s.finished.length }.unref

end Shared

inductive Act (n : ℕ) (ρ : Type*)
  | await
  | finish (i : Fin n) (o : Outcome ρ)
  | destroy

/-- One step. -/
def step (k : Kind) (s : Shared n ρ) : Act n ρ → Option (Shared n ρ)
  | .await => if s.stage = .fresh then some s.await else none
  | .finish i o => if s.launched ∧ i ∉ s.finished.map Prod.fst then some (s.task k i o) else none
  | .destroy => if s.stage ≠ .gone then some s.destroy else none

/-! ## What the combinators promise -/

/-- The awaiting coroutine is to run again: all have ended, or one has. -/
def Shared.Ripe (s : Shared n ρ) : Kind → Prop
  | .all => s.finished.length = n
  | .any => s.finished ≠ []

/-- It was, while its awaiter was there. -/
def Shared.Woken (s : Shared n ρ) : Kind → Prop
  | .all => s.launched = true ∧ s.finished.length = n ∧ ∀ m ∈ s.left, m = n
  | .any => s.launched = true ∧ s.finished ≠ [] ∧ ∀ m ∈ s.left, 0 < m

/-- The results are the children's; of `when_any`, the first one's, under its index, and nothing
else is written. -/
def Shared.Told (s : Shared n ρ) : Kind → Prop
  | .all => ∀ i r, (i, r) ∈ s.finished → s.results i = some r
  | .any => ∀ i r l, s.finished = (i, r) :: l →
      s.completedIndex = some i ∧ s.results = Function.update (fun _ => none) i (some r)

instance (s : Shared n ρ) (k : Kind) : Decidable (s.Woken k) := by
  cases k
  · exact inferInstanceAs (Decidable (_ ∧ _ ∧ _))
  · exact decidable_of_iff (s.launched = true ∧ s.finished.isEmpty = false ∧ ∀ m ∈ s.left, 0 < m)
      (by simp [Shared.Woken])

/-- **The contract.**  The state is deleted once, when the awaiter and every launched wrapper have
let go of it; the awaiting coroutine runs again once, at the last completion or the first, unless
its awaiter is gone by then; and it finds what it was promised. -/
structure Sound (k : Kind) (s : Shared n ρ) : Prop where
  freed : s.frees = if s.stage = .gone ∧ (s.launched = true → s.finished.length = n) then 1 else 0
  woken : s.resumes = if s.Woken k then 1 else 0
  told : s.Told k

/-- The awaiter is awaited before it is destroyed, if there is anything to await. -/
def Awaited (s : Shared n ρ) : Act n ρ → Prop
  | .destroy => s.stage ≠ .fresh ∨ n = 0
  | _ => True

instance (s : Shared n ρ) (a : Act n ρ) : Decidable (Awaited s a) := by
  cases a <;> simp only [Awaited] <;> infer_instance

/-! ## The invariant -/

/-- What the awaiter's stage says of the rest. -/
def Shared.Staged (s : Shared n ρ) (k : Kind) : Prop :=
  match s.stage with
  | .fresh => s.launched = false ∧ s.left = none
  | .suspended => s.launched = true ∧ s.left = none ∧ ¬ s.Ripe k
  | .resumed => s.left = none ∧ (s.launched = true → s.Ripe k) ∧ (s.launched = false → n = 0)
  | .gone => ∃ m, s.left = some m ∧ m ≤ s.finished.length

/-- **Who holds a reference, who waits.** -/
structure Ok (k : Kind) (s : Shared n ρ) : Prop extends Sound k s where
  refs_eq : s.refs = (if s.stage = .gone then 0 else 1) + (n - s.finished.length)
  remaining_eq : k = .all → s.remaining = n - s.finished.length
  waits : s.continuation = true ↔ s.stage = .suspended
  nodup : (s.finished.map Prod.fst).Nodup
  idle : s.launched = false → s.finished = []
  some_pos : s.launched = true → 0 < n
  staged : s.Staged k
  done_iff : k = .any → (s.done = true ↔ s.finished ≠ [])
  blank : k = .any → s.done = false → s.results = fun _ => none

theorem ok_make (k : Kind) (canceler : Bool) : Ok k ({ canceler := canceler } : Shared n ρ) where
  freed := rfl
  woken := by cases k <;> rfl
  told := by
    cases k
    · exact fun i r h => absurd h not_mem_nil
    · exact fun i r l h => absurd h nofun
  refs_eq := by
    change (n : ℤ) + 1 = 1 + (n - (0 : ℕ))
    omega
  remaining_eq _ := by
    change (n : ℤ) = n - (0 : ℕ)
    omega
  waits := by simp
  nodup := nodup_nil
  idle _ := rfl
  some_pos := nofun
  staged := ⟨rfl, rfl⟩
  done_iff _ := by simp
  blank _ _ := rfl

variable {k : Kind} {s t : Shared n ρ}

/-- How many have to end for that. -/
def Kind.Enough (n : ℕ) : Kind → ℕ → Prop
  | .all, m => m = n
  | .any, m => 0 < m

theorem Kind.Enough.mono {a b : ℕ} (h : k.Enough n a) (hab : a ≤ b) (hb : b ≤ n) : k.Enough n
    b := by
  cases k with
  | all => exact le_antisymm hb (h.symm.trans_le hab)
  | any => exact Nat.lt_of_lt_of_le h hab

theorem ripe_iff : s.Ripe k ↔ k.Enough n s.finished.length := by
  cases k with
  | all => exact Iff.rfl
  | any => exact length_pos_iff.symm

theorem woken_iff : s.Woken k ↔ s.launched = true ∧ s.Ripe k ∧ ∀ m ∈ s.left, k.Enough n m := by
  cases k <;> exact Iff.rfl

theorem Ok.length_le (h : Ok k s) : s.finished.length ≤ n := by
  simpa using h.nodup.length_le_card

theorem Ok.length_lt (h : Ok k s) {i : Fin n}
    (hi : i ∉ s.finished.map Prod.fst) : s.finished.length < n := by
  have hnd : (i :: s.finished.map Prod.fst).Nodup := nodup_cons.mpr ⟨hi, h.nodup⟩
  have hle := hnd.length_le_card
  rw [length_cons, length_map, Fintype.card_fin] at hle
  exact hle

/-- While a launched wrapper runs, its reference keeps the state alive. -/
theorem Ok.frees_eq_zero (h : Ok k s) (hl : s.launched = true)
    (hlt : s.finished.length < n) : s.frees = 0 := by
  rw [h.freed, if_neg]
  exact fun hc => absurd (hc.2 hl) hlt.ne

theorem Ok.of_fresh (h : Ok k s) (hs : s.stage = .fresh) : s.launched = false ∧ s.left = none := by
  have hstaged := h.staged
  rwa [Shared.Staged, hs] at hstaged

theorem Ok.of_suspended (h : Ok k s) (hs : s.stage = .suspended) :
    s.launched = true ∧ s.left = none ∧ ¬ s.Ripe k := by
  have hstaged := h.staged
  rwa [Shared.Staged, hs] at hstaged

theorem Ok.of_resumed (h : Ok k s) (hs : s.stage = .resumed) :
    s.left = none ∧ (s.launched = true → s.Ripe k) ∧ (s.launched = false → n = 0) := by
  have hstaged := h.staged
  rwa [Shared.Staged, hs] at hstaged

theorem Ok.await (h : Ok k s) (hs : s.stage = .fresh) : Ok k s.await := by
  obtain ⟨hl, hleft⟩ := h.of_fresh hs
  have hnil := h.idle hl
  have hfrees : s.frees = 0 := by rw [h.freed, if_neg]; simp [hs]
  have hresumes : s.resumes = 0 := by
    rw [h.woken, if_neg]
    exact fun hc => absurd (hl.symm.trans (woken_iff.mp hc).1) nofun
  rw [Shared.await]
  split_ifs with hn
  · subst hn
    exact { h with
      freed := by simp [hfrees]
      woken := by
        rw [if_neg]
        · exact hresumes
        · exact fun hc => absurd (hl.symm.trans (woken_iff.mp hc).1) nofun
      told := by cases k <;> exact h.told
      refs_eq := by rw [h.refs_eq]; simp [hs]
      waits := by
        refine iff_of_false (fun hc => ?_) nofun
        exact absurd (hs.symm.trans (h.waits.mp hc)) nofun
      staged := ⟨hleft, fun hc => absurd (hl.symm.trans hc) nofun, fun _ => rfl⟩ }
  · have hripe : ¬ k.Enough n s.finished.length := by
      rw [hnil]
      cases k
      · exact fun hc => hn hc.symm
      · exact Nat.lt_irrefl 0
    exact { h with
      freed := by simp [hfrees]
      woken := by
        rw [if_neg]
        · exact hresumes
        · exact fun hc => hripe (ripe_iff.mp (woken_iff.mp hc).2.1)
      told := by cases k <;> exact h.told
      refs_eq := by rw [h.refs_eq]; simp [hs]
      waits := iff_of_true rfl rfl
      idle := nofun
      some_pos := fun _ => Nat.pos_of_ne_zero hn
      staged := ⟨rfl, hleft, fun hc => hripe (ripe_iff.mp hc)⟩ }

/-- **The awaiter lets go.**  If it was awaited it is one of those who hold the state; if not, the
wrappers' references are never given back. -/
theorem destroy_sound_iff (h : Ok k s) (hs : s.stage ≠ .gone) :
    (Awaited s .destroy → Ok k s.destroy) ∧ (Sound k s.destroy → Awaited s .destroy) := by
  have hfrees : s.frees = 0 := by rw [h.freed, if_neg]; exact fun hc => hs hc.1
  have hleft : s.left = none := by
    cases hst : s.stage with
    | fresh => exact (h.of_fresh hst).2
    | suspended => exact (h.of_suspended hst).2.1
    | resumed => exact (h.of_resumed hst).1
    | gone => exact absurd hst hs
  have hlen := h.length_le
  have hrefs : s.refs - 1 = n - s.finished.length := by
    rw [h.refs_eq, if_neg hs]
    omega
  have hdestroy : s.destroy.frees = if s.finished.length = n then 1 else 0 := by
    change (if s.refs - 1 = 0 then s.frees + 1 else s.frees) = _
    rw [hrefs, hfrees]
    exact if_congr (by omega) rfl rfl
  refine ⟨fun hawaited => ?_, fun hsound => ?_⟩
  · have hstages : s.launched = true ∨ n = 0 := by
      cases hst : s.stage with
      | fresh => exact .inr (hawaited.resolve_left (not_not.mpr hst))
      | suspended => exact .inl (h.of_suspended hst).1
      | resumed =>
        cases hl : s.launched with
        | true => exact .inl rfl
        | false => exact .inr ((h.of_resumed hst).2.2 hl)
      | gone => exact absurd hst hs
    exact { h with
      freed := by
        rw [hdestroy]
        refine if_congr ⟨fun hc => ⟨rfl, fun _ => hc⟩, fun hc => ?_⟩ rfl rfl
        rcases hstages with hl | rfl
        · exact hc.2 hl
        · omega
      woken := by
        change s.resumes = _
        rw [h.woken]
        refine if_congr ?_ rfl rfl
        rw [woken_iff, woken_iff, hleft, ripe_iff]
        simp [Shared.destroy, Shared.unref, ripe_iff]
      told := by cases k <;> exact h.told
      refs_eq := by
        change s.refs - 1 = 0 + _
        rw [hrefs, Int.zero_add]
        rfl
      waits := iff_of_false nofun nofun
      staged := ⟨s.finished.length, rfl, le_rfl⟩ }
  · by_contra hc
    obtain ⟨hfresh, hn⟩ := not_or.mp hc
    have hl := (h.of_fresh (not_not.mp hfresh)).1
    have hfreed := hsound.freed
    rw [hdestroy, h.idle hl, length_nil, if_neg (Ne.symm hn), if_pos] at hfreed
    · cases hfreed
    · exact ⟨rfl, fun hc => absurd (hl.symm.trans hc) nofun⟩

/-! ## A child ends -/

section Ended

variable {i : Fin n} {o : Outcome ρ} (h : Ok k s) (hl : s.launched = true)
  (hi : i ∉ s.finished.map Prod.fst)

include h hl hi

/-- **A wrapper gives up its reference**, the last one if the awaiter is gone and it was the last to
run; what it does besides is up to the combinator. -/
theorem Ok.of_ended (hfinished : t.finished = s.finished ++ [(i, o.slot)])
    (hlaunched : t.launched = s.launched) (hrefs : t.refs = s.refs - 1)
    (hfrees : t.frees = if s.refs - 1 = 0 then s.frees + 1 else s.frees)
      (hgone : t.stage = .gone ↔ s.stage = .gone)
    (hwoken : t.resumes = if t.Woken k then 1 else 0) (htold : t.Told k)
    (hremaining : k = .all → t.remaining = s.remaining - 1)
      (hwaits : t.continuation = true ↔ t.stage = .suspended)
    (hstaged : t.Staged k) (hdone : k = .any → t.done = true) : Ok k t := by
  have hlt := h.length_lt hi
  have hlen : t.finished.length = s.finished.length + 1 := by rw [hfinished]; simp
  have hrefs' : t.refs = (if s.stage = .gone then 0 else 1) +
    (n - (s.finished.length + 1 : ℕ)) := by
    rw [hrefs, h.refs_eq]
    push_cast
    omega
  refine { freed := ?_, woken := hwoken, told := htold, refs_eq := ?_, remaining_eq := fun hk => ?_,
           waits := hwaits,
           nodup := ?_, idle := fun hc => ?_, some_pos := fun _ => h.some_pos hl, staged := hstaged,
           done_iff := fun hk => ?_, blank := fun hk hc => ?_ }
  · rw [hfrees, ← hrefs, hrefs', h.frees_eq_zero hl hlt, hlaunched, hl, hlen]
    refine if_congr ?_ rfl rfl
    rw [hgone]
    split_ifs with hg
    · simp only [hg, true_and, forall_const]
      omega
    · simp only [hg, false_and, iff_false]
      omega
  · rw [hrefs', hlen]
    simp only [hgone]
  · rw [hremaining hk, h.remaining_eq hk, hlen]
    push_cast
    omega
  · rw [hfinished, map_append]
    refine h.nodup.append (nodup_singleton i) fun j hj hj' => hi ?_
    obtain rfl : j = i := mem_singleton.mp hj'
    exact hj
  · rw [hlaunched, hl] at hc
    cases hc
  · rw [hfinished]
    exact iff_of_true (hdone hk) (by simp)
  · rw [hdone hk] at hc
    cases hc

variable {r : Fin n → Option (Except Error ρ)} {m : ℤ} {d : Bool} {x : Option (Fin n)} {c : Bool}
  (hu : t = { s.ended i o with results := r, remaining := m, done := d, completedIndex := x,
                               cancelled := c })
  (htold : t.Told k) (hremaining : k = .all → m = s.remaining - 1) (hdone : k = .any → d = true)

include hu htold hremaining hdone

/-- A child that is not the one to wait for. -/
theorem Ok.passed (hripe : t.Ripe k ↔ s.Ripe k) : Ok k t.unref := by
  subst hu
  refine h.of_ended (o := o) hl hi rfl rfl rfl rfl Iff.rfl ?_
    (by cases k <;> exact htold) hremaining h.waits ?_ hdone
  · change s.resumes = _
    rw [h.woken]
    refine if_congr ?_ rfl rfl
    rw [woken_iff, woken_iff, ← hripe]
    exact Iff.rfl
  · have hstaged := h.staged
    rw [Shared.Staged] at hstaged ⊢
    change match s.stage with | .fresh => _ | .suspended => _ | .resumed => _ | .gone => _
    cases hst : s.stage with
    | fresh => exact absurd ((h.of_fresh hst).1.symm.trans hl) nofun
    | suspended =>
      obtain ⟨-, hleft, hnot⟩ := h.of_suspended hst
      exact ⟨hl, hleft, fun hc => hnot (hripe.mp hc)⟩
    | resumed =>
      obtain ⟨hleft, hr, hn⟩ := h.of_resumed hst
      exact ⟨hleft, fun hl => hripe.mpr (hr hl), hn⟩
    | gone =>
      rw [hst] at hstaged
      obtain ⟨m, hleft, hm⟩ := hstaged
      exact ⟨m, hleft, hm.trans (length_append ▸ Nat.le_add_right ..)⟩

/-- **The child to wait for** wakes the awaiting coroutine, if it is there. -/
theorem Ok.ripened (hnot : ¬ s.Ripe k) (hripe : t.Ripe k) :
    Ok k ({ t with continuation := false }.unref.wake s.continuation) := by
  subst hu
  have hresumes : s.resumes = 0 := by
    rw [h.woken, if_neg]
    exact fun hc => hnot (woken_iff.mp hc).2.1
  have hstaged := h.staged
  cases hst : s.stage with
  | fresh => exact absurd ((h.of_fresh hst).1.symm.trans hl) nofun
  | resumed => exact absurd ((h.of_resumed hst).2.1 hl) hnot
  | suspended =>
    have hleft := (h.of_suspended hst).2.1
    rw [h.waits.mpr hst, Shared.wake, if_pos rfl]
    refine h.of_ended (o := o) hl hi rfl rfl rfl rfl
      (iff_of_false nofun (by simp [hst])) ?_ (by cases k <;> exact htold)
      hremaining (iff_of_false nofun nofun) ⟨hleft, fun _ => ?_, fun hc =>
        absurd (hl.symm.trans hc) nofun⟩ hdone
    · rw [if_pos]
      · exact congrArg (· + 1) hresumes
      · exact woken_iff.mpr
          ⟨hl, by cases k <;> exact hripe, fun m hm => absurd (hleft.symm.trans hm) nofun⟩
    · cases k <;> exact hripe
  | gone =>
    rw [Shared.Staged, hst] at hstaged
    obtain ⟨m, hleft, hm⟩ := hstaged
    have hcont : s.continuation = false := by
      rw [Bool.eq_false_iff]
      exact fun hc => absurd (hst.symm.trans (h.waits.mp hc)) nofun
    rw [hcont, Shared.wake, if_neg nofun]
    refine h.of_ended (o := o) hl hi rfl rfl rfl rfl Iff.rfl ?_
      (by cases k <;> exact htold) hremaining
      (iff_of_false nofun fun hc => absurd (hst.symm.trans hc) nofun) ?_ hdone
    · rw [if_neg]
      · exact hresumes
      · exact fun hc => hnot (ripe_iff.mpr (((woken_iff.mp hc).2.2 m hleft).mono hm h.length_le))
    · change match s.stage with | .fresh => _ | .suspended => _ | .resumed => _ | .gone => _
      rw [hst]
      exact ⟨m, hleft, hm.trans (length_append ▸ Nat.le_add_right ..)⟩

end Ended

theorem Ok.whenAllTask (h : Ok .all s) {i : Fin n} (hl : s.launched = true)
    (hi : i ∉ s.finished.map Prod.fst)
    (o : Outcome ρ) : Ok .all (s.whenAllTask i o) := by
  have hlt := h.length_lt hi
  have hlen : (s.finished ++ [(i, o.slot)]).length = s.finished.length + 1 := by simp
  have hzero : s.remaining - 1 = 0 ↔ s.finished.length + 1 = n := by
    rw [h.remaining_eq rfl]
    omega
  have htold : ∀ j r, (j, r) ∈ s.finished ++ [(i, o.slot)] → Function.update s.results i
    (some o.slot) j = some r := by
    intro j r hj
    rcases mem_append.mp hj with hj | hj
    · have hji : j ≠ i := fun hc => hi (hc ▸ mem_map_of_mem (f := Prod.fst) hj)
      rw [Function.update_of_ne hji]
      exact h.told j r hj
    · obtain ⟨rfl, rfl⟩ := Prod.mk.inj (mem_singleton.mp hj)
      exact Function.update_self ..
  rw [Shared.whenAllTask]
  by_cases hlast : s.finished.length + 1 = n
  · rw [if_pos (hzero.mpr hlast)]
    exact h.ripened hl hi rfl htold (fun _ => rfl) nofun hlt.ne (hlen.trans hlast)
  · rw [if_neg fun hc => hlast (hzero.mp hc)]
    exact h.passed hl hi rfl htold (fun _ => rfl)
      nofun (iff_of_false (fun hc => hlast (hlen.symm.trans hc)) hlt.ne)

theorem Ok.whenAnyTask (h : Ok .any s) {i : Fin n} (hl : s.launched = true)
    (hi : i ∉ s.finished.map Prod.fst)
    (o : Outcome ρ) : Ok .any (s.whenAnyTask i o) := by
  have hsome : s.finished ++ [(i, o.slot)] ≠ [] := by simp
  rw [Shared.whenAnyTask]
  by_cases hd : s.done = true
  · -- somebody was first
    have hne : s.finished ≠ [] := (h.done_iff rfl).mp hd
    rw [if_pos hd]
    refine h.passed hl hi rfl (fun j r l hj => ?_) nofun (fun _ => hd) (iff_of_true hsome hne)
    obtain ⟨e, l', hfinished⟩ := exists_cons_of_ne_nil hne
    have hhead : e = (j, r) := by
      change s.finished ++ [(i, o.slot)] = (j, r) :: l at hj
      rw [hfinished] at hj
      exact (List.cons.inj hj).1
    exact h.told j r l' (hhead ▸ hfinished)
  · have hnil : s.finished = [] := by
      by_contra hc
      exact hd ((h.done_iff rfl).mpr hc)
    rw [if_neg hd]
    refine h.ripened hl hi rfl (fun j r l hj => ?_) nofun (fun _ => rfl) (not_not.mpr hnil) hsome
    change s.finished ++ [(i, o.slot)] = (j, r) :: l at hj
    rw [hnil] at hj
    obtain ⟨hpair, -⟩ := List.cons.inj hj
    obtain ⟨rfl, rfl⟩ := Prod.mk.inj hpair
    exact ⟨rfl, congrArg (Function.update · i _) (h.blank rfl (Bool.eq_false_iff.mpr hd))⟩

theorem Ok.task (h : Ok k s) {i : Fin n} (hl : s.launched = true) (hi : i ∉ s.finished.map Prod.fst)
    (o : Outcome ρ) :
    Ok k (s.task k i o) := by
  cases k with
  | all => exact h.whenAllTask hl hi o
  | any => exact h.whenAnyTask hl hi o

/-! ## Runs -/

theorem Ok.step {a : Act n ρ} (h : Ok k s) (hst : step k s a = some t) :
    (Awaited s a → Ok k t) ∧ (Sound k t → Awaited s a) := by
  cases a with
  | await =>
    obtain ⟨hs, rfl⟩ : s.stage = .fresh ∧ s.await = t := by simpa [Combinators.step] using hst
    exact ⟨fun _ => h.await hs, fun _ => trivial⟩
  | finish i o =>
    obtain ⟨⟨hl, hi⟩, rfl⟩ : (s.launched = true ∧ i ∉ s.finished.map Prod.fst) ∧
      s.task k i o = t := by
      simpa [Combinators.step] using hst
    exact ⟨fun _ => h.task hl hi o, fun _ => trivial⟩
  | destroy =>
    obtain ⟨hs, rfl⟩ : s.stage ≠ .gone ∧ s.destroy = t := by simpa [Combinators.step] using hst
    exact destroy_sound_iff h hs

/-- **The contract is kept, exactly** by the awaiters that are awaited: for any number of children,
in any order, however they end and whenever the awaiter is destroyed.  One that is destroyed before,
with children, leaks the state. -/
theorem sound_iff_awaited {canceler : Bool} {as : List (Act n ρ)}
    (h : Run (step k) Awaited ({ canceler := canceler } : Shared n ρ) as s) :
    Sound k s ∧ ∀ a t, step k s a = some t → (Sound k t ↔ Awaited s a) := by
  have hok : Ok k s := by
    refine Run.invariant (I := Ok k) (ok_make k canceler) ?_ h
    intro s a t hs hawaited hst
    exact (hs.step hst).1 hawaited
  refine ⟨hok.toSound, fun a t hst => ?_⟩
  obtain ⟨h₁, h₂⟩ := hok.step hst
  exact ⟨h₂, fun ha => (h₁ ha).toSound⟩

/-- Two of three children end, one by throwing; then the awaiter goes, and the last child ends. -/
def raceWord : List (Act 3 ℕ) :=
  [.await, .finish 1 (.value (.ok 7)), .finish 0 .threw, .destroy, .finish 2 (.value (.ok 9))]

theorem sound_iff_awaited_race : ∃ s : Shared 3 ℕ, Run (step .any) Awaited { canceler := true }
    raceWord s ∧
    Sound .any s ∧ s.resumes = 1 ∧ s.completedIndex = some 1 ∧ s.frees = 1 :=
  Run.exists_and_of_mem (fun h => (sound_iff_awaited h).1) (by decide +kernel)

/-- **A leak.**  `when_all` of one child is made and dropped without being awaited: one reference of
two is given back, and nobody has the other. -/
theorem unawaited_leaks : ∃ s : Shared 1 ℕ, Run (step .all) (fun _ _ => True) {} [.destroy] s ∧
    s.stage = .gone ∧ s.launched = false ∧ s.refs = 1 ∧ s.frees = 0 :=
  Run.exists_of_mem (by decide +kernel)

end Cornet.Combinators
