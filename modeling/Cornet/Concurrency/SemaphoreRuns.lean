import Mathlib.Data.List.TakeWhile
import Cornet.Concurrency.SemaphoreQueue

/-!
# Concurrency/SemaphoreRuns — who is served, and who is woken

    head ──▸ need 2 ⇄ need 1        count = 1        the head waits, and everyone behind it

The invariant of the queue holds along every run.  The queue is served in order except by the fast
path of `acquire`, which takes what the head cannot use; and nobody waits for permits that are
there, unless the head is destroyed and leaves a smaller need behind it.
-/

namespace Cornet.Semaphore

open List

variable {ν γ : Type*} [DecidableEq ν] [DecidableEq γ] {s t : Sem ν γ} {l : List ν} {w : ν} {n : ℕ}
  {g : Option γ}

/-! ## The invariant along a run -/

section

omit [DecidableEq γ]

/-- What grants keep, a wake keeps. -/
theorem wake_induction {P : Sem ν γ → Prop}
    (hgrant : ∀ {s w l}, Ok s (w :: l) → (s.waiters w).need ≤ s.count → P s → P (s.grant w))
    (h : Ok s l) (hP : P s) : (∃ l', Ok s.wake l') ∧ P s.wake := by
  rw [Sem.wake]
  split_ifs
  · exact ⟨⟨l, h⟩, hP⟩
  · exact wakeReady_induction hgrant _ h hP

/-- The end of `abort`'s loop: nobody is left. -/
theorem Ok.refuseAll (err : Error) : ∀ (k : ℕ) {s : Sem ν γ} {l : List ν}, Ok s l → l.length < k →
    Ok (Sem.refuseAll err k s) []
  | 0, _, _, _, hk => absurd hk (Nat.not_lt_zero _)
  | k + 1, s, [], h, _ => by
      rw [Sem.refuseAll, show s.head = none from h.dlq.head_eq]
      exact h
  | k + 1, s, w :: l, h, hk => by
      rw [Sem.refuseAll, show s.head = some w from h.dlq.head_eq]
      exact (h.refuse err).refuseAll err k (Nat.lt_of_succ_lt_succ hk)

/-- **The loop rule** for `abort`. -/
theorem refuseAll_induction {P : Sem ν γ → Prop} (err : Error)
    (hrefuse : ∀ s w, P s → P (s.refuse err w)) :
    ∀ (k : ℕ) {s : Sem ν γ}, P s → P (Sem.refuseAll err k s)
  | 0, _, h => h
  | k + 1, s, h => by
      rw [Sem.refuseAll]
      cases s.head with
      | none => exact h
      | some w => exact refuseAll_induction err hrefuse k (hrefuse s w h)

end

section

variable (h : Ok s l)

include h

section

omit [DecidableEq γ]

theorem Ok.wake : ∃ l', Ok s.wake l' :=
  (wake_induction (P := fun _ => True) (fun _ _ _ => trivial) h trivial).1

theorem Ok.add (n : ℕ) : Ok (s.add n) l := h.congr rfl rfl rfl rfl rfl

theorem Ok.release (n : ℕ) : ∃ l', Ok (s.release n) l' := by
  rw [Sem.release]
  split_ifs
  · exact ⟨l, h⟩
  · exact (h.add n).wake

theorem Ok.not_queued (hw : (s.waiters w).stage ≠ .suspended) : (s.waiters w).queued = false := by
  by_contra hc
  exact hw (h.waits w (by simpa using hc)).1

/-- What is left of a queue that a waiter is missing from. -/
theorem Ok.erase_eq (hw : (s.waiters w).queued = false) : (line s.log).erase w = line s.log := by
  refine erase_of_not_mem fun hmem => ?_
  rw [h.line_eq, h.mem_iff, hw] at hmem
  cases hmem

/-- A frame that is suspended is destroyed: in the queue, with its permits granted, or turned
away. -/
theorem destroy_cases :
    (w ∈ l ∧ s.destroy w = ((s.unlink w).record (.leave w)).put w fun e =>
      { e with stage := .gone }) ∨
    ((s.waiters w).queued = false ∧ (s.waiters w).granted = true ∧ (s.waiters w).consumed = false ∧
      s.destroy w = ((s.put w fun e => { e with stage := .gone }).add (s.waiters w).need).wake) ∨
    ((s.waiters w).queued = false ∧ ((s.waiters w).granted = false ∨
      (s.waiters w).consumed = true) ∧
      s.destroy w = s.put w fun e => { e with stage := .gone }) := by
  cases hq : (s.waiters w).queued with
  | true =>
    refine .inl ⟨(h.mem_iff w).mpr hq, ?_⟩
    have hg : (((s.unlink w).record (.leave w)).waiters w).granted = false := by
      change ((s.unlink w).waiters w).granted = false
      rw [unlink_apply, if_pos rfl]
      exact (h.waits w hq).2
    simp only [Sem.destroy, hq, if_true, hg, Bool.false_and, Bool.false_eq_true, if_false]
  | false =>
    refine .inr ?_
    cases hg : (s.waiters
      w).granted <;> cases hc : (s.waiters w).consumed <;> simp [Sem.destroy, hq, hg, hc]

theorem Ok.destroy (w : ν) : ∃ l', Ok (s.destroy w) l' := by
  rcases destroy_cases h (w := w) with ⟨hw, heq⟩ | ⟨hq, -, -, heq⟩ | ⟨hq, -, heq⟩
  · exact ⟨l.erase w, heq ▸ h.quit (f := fun e => { e with stage := .gone }) hw (fun _ => rfl)
      (fun _ => rfl)
      (fun _ _ => nofun) rfl rfl rfl rfl (fun _ => rfl) (.inl rfl)⟩
  · exact heq ▸ ((h.gone hq).add _).wake
  · exact ⟨l, heq ▸ h.gone hq⟩

theorem Ok.serve (hw : (s.waiters w).queued = false) (n : ℕ) : Ok (s.serve w n) l := by
  refine h.touch (f := fun _ => { need := n, granted := true, consumed := true, stage := .gone }) hw
    rfl rfl rfl
    rfl rfl rfl ?_
  change line (s.log ++ [_]) = _
  rw [line_snoc]
  exact h.erase_eq hw

theorem Ok.abort (err : Error) : ∃ l', Ok (s.abort err) l' := by
  rw [Sem.abort]
  split_ifs
  · exact ⟨l, h⟩
  · exact ⟨[], Ok.refuseAll err _ (h.congr rfl rfl rfl rfl rfl) h.length_lt⟩

end

theorem Ok.pay (n : ℕ) (g : Option γ) : Ok (s.pay n g) l :=
  by cases g <;> exact h.congr rfl rfl rfl rfl rfl

theorem Ok.acquire (hw : (s.waiters w).stage = .unborn) (n : ℕ) (g : Option γ) : ∃ l',
    Ok (s.acquire w n g) l' := by
  have hq : (s.waiters w).queued = false := h.not_queued (by rw [hw]; nofun)
  rw [Sem.acquire]
  split_ifs
  · exact ⟨l, h.touch (f := fun _ =>
      { need := n, err := s.abortErr, consumed := true, stage := .gone }) hq rfl rfl
      rfl rfl rfl rfl rfl⟩
  · exact ⟨l, (h.serve hq n).pay n g⟩
  · exact ⟨l ++ [w], h.suspend hw n⟩

theorem Ok.resume (hw : w ∈ s.ready) (g : Option γ) : Ok (s.resume w g) l := by
  have hq := h.woken w hw
  have hput : Ok (s.put w fun e => { e with consumed := true, stage := .gone }) l :=
    h.touch (f := fun e => { e with consumed := true, stage := .gone }) hq hq rfl rfl rfl rfl rfl
      rfl
  rw [Sem.resume]
  split_ifs
  · exact hput.pay _ g
  · exact hput

theorem Ok.resetGuard (g : γ) : ∃ l', Ok (s.resetGuard g) l' := by
  rw [Sem.resetGuard]
  cases s.guards g with
  | none => exact ⟨l, h⟩
  | some n =>
    obtain ⟨l', h'⟩ := h.release n
    exact ⟨l', h'.congr rfl rfl rfl rfl rfl⟩

theorem Ok.moveGuard (g g' : γ) : Ok (s.moveGuard g g') l := h.congr rfl rfl rfl rfl rfl

theorem Ok.assignGuard (g g' : γ) : ∃ l', Ok (s.assignGuard g g') l' := by
  rw [Sem.assignGuard]
  split_ifs
  · exact ⟨l, h⟩
  · obtain ⟨l', h'⟩ := h.resetGuard g
    exact ⟨l', h'.moveGuard g' g⟩

end

/-- What a step can be, and when it can be. -/
inductive Move (s : Sem ν γ) : Act ν γ → Sem ν γ → Prop
  | acquire (w : ν) (n : ℕ) (g : Option γ) (hw : (s.waiters w).stage = .unborn) (hg : s.Free g) :
      Move s (.acquire w n g) (s.acquire w n g)
  | resume (w : ν) (g : Option γ) (hw : (s.waiters w).stage = .suspended) (hready : w ∈ s.ready)
    (hg : s.Free g) :
      Move s (.resume w g) (s.resume w g)
  | destroy (w : ν) (hw : (s.waiters w).stage = .suspended) : Move s (.destroy w) (s.destroy w)
  | tryAcquire (n : ℕ) : Move s (.tryAcquire n) (s.tryAcquire n)
  | release (n : ℕ) : Move s (.release n) (s.releaseBy n)
  | resetGuard (g : γ) : Move s (.resetGuard g) (s.resetGuard g)
  | moveGuard (g h : γ) (hh : s.guards h = none) : Move s (.moveGuard g h) (s.moveGuard g h)
  | assignGuard (g h : γ) : Move s (.assignGuard g h) (s.assignGuard g h)
  | abort (err : Error) : Move s (.abort err) (s.abort err)

theorem move_of_step {a : Act ν γ} (hst : step s a = some t) : Move s a t := by
  cases a with
  | acquire w n g =>
    obtain ⟨⟨hw, hg⟩, rfl⟩ : (_ ∧ _) ∧ s.acquire w n g = t := by simpa [step] using hst
    exact .acquire w n g hw hg
  | resume w g =>
    obtain ⟨⟨hw, hready, hg⟩, rfl⟩ : (_ ∧ _ ∧ _) ∧ s.resume w g = t := by simpa [step] using hst
    exact .resume w g hw hready hg
  | destroy w =>
    obtain ⟨hw, rfl⟩ : _ ∧ s.destroy w = t := by simpa [step] using hst
    exact .destroy w hw
  | moveGuard g h =>
    obtain ⟨hh, rfl⟩ : _ ∧ s.moveGuard g h = t := by simpa [step] using hst
    exact .moveGuard g h hh
  | tryAcquire n =>
    obtain rfl := Option.some.inj hst
    exact .tryAcquire n
  | release n =>
    obtain rfl := Option.some.inj hst
    exact .release n
  | resetGuard g =>
    obtain rfl := Option.some.inj hst
    exact .resetGuard g
  | assignGuard g h =>
    obtain rfl := Option.some.inj hst
    exact .assignGuard g h
  | abort err =>
    obtain rfl := Option.some.inj hst
    exact .abort err

theorem Ok.move {a : Act ν γ} (h : Ok s l) (hmove : Move s a t) : ∃ l', Ok t l' := by
  cases hmove with
  | acquire w n g hw => exact h.acquire hw n g
  | resume w g _ hready => exact ⟨l, h.resume hready g⟩
  | destroy w => exact h.destroy w
  | tryAcquire n =>
    refine ⟨l, ?_⟩
    rw [Sem.tryAcquire]
    split_ifs
    · exact h
    · exact h.congr rfl rfl rfl rfl rfl
  | release n =>
    obtain ⟨l', h'⟩ := h.release n
    exact ⟨l', h'.congr rfl rfl rfl rfl rfl⟩
  | resetGuard g => exact h.resetGuard g
  | moveGuard g g' => exact ⟨l, h.moveGuard g g'⟩
  | assignGuard g g' => exact h.assignGuard g g'
  | abort err => exact h.abort err

/-! ## First come, first served -/

/-- **What a grant owes those who wait**: nobody who joined the queue before is still in it. -/
def Fair (before : List (Event ν)) : Event ν → Prop
  | .grant w => (line before).takeWhile (· ≠ w) = []
  | _ => True

/-- Every grant was fair. -/
def Sem.Orderly (s : Sem ν γ) : Prop := Throughout Fair s.log

/-- The fast path is not taken past somebody who waits. -/
def Patient (s : Sem ν γ) : Act ν γ → Prop
  | .acquire _ n _ => s.aborted = true ∨ s.count < n ∨ s.head = none
  | _ => True

instance (s : Sem ν γ) : ∀ a, Decidable (Patient s a)
  | .acquire _ n _ => inferInstanceAs (Decidable (s.aborted = true ∨ s.count < n ∨ s.head = none))
  | .resume .. | .destroy _ | .tryAcquire _ | .release _ | .resetGuard _ | .moveGuard .. |
    .assignGuard ..
  | .abort _ => isTrue trivial

section

omit [DecidableEq γ]

theorem Ok.fair_head (h : Ok s (w :: l)) : Fair s.log (.grant w) := by
  rw [Fair, h.line_eq]
  simp

theorem Sem.Orderly.grant (ho : s.Orderly) (h : Ok s (w :: l)) : (s.grant w).Orderly := by
  change Throughout Fair ((s.unlink w).log ++ [_])
  rw [unlink_log]
  exact ho.snoc h.fair_head

theorem Sem.Orderly.wake (ho : s.Orderly) (h : Ok s l) : s.wake.Orderly :=
  (wake_induction (P := Sem.Orderly) (fun hs _ hP => hP.grant hs) h ho).2

theorem Sem.Orderly.release (ho : s.Orderly) (h : Ok s l) (n : ℕ) : (s.release n).Orderly := by
  rw [Sem.release]
  split_ifs
  · exact ho
  · exact Sem.Orderly.wake (s := s.add n) ho (h.add n)

theorem Sem.Orderly.leave (ho : s.Orderly) : ((s.unlink w).record (.leave w)).Orderly := by
  change Throughout Fair ((s.unlink w).log ++ [_])
  rw [unlink_log]
  exact ho.snoc trivial

theorem Sem.Orderly.destroy (ho : s.Orderly) (h : Ok s l) (w : ν) : (s.destroy w).Orderly := by
  rcases destroy_cases h (w := w) with ⟨-, heq⟩ | ⟨hq, -, -, heq⟩ | ⟨-, -, heq⟩
  · exact heq ▸ ho.leave (w := w)
  · exact heq ▸ Sem.Orderly.wake ho ((h.gone hq).add _)
  · exact heq ▸ ho

/-- The fast path is fair when nobody waits. -/
theorem Ok.fair_serve_iff (h : Ok s l) (hw : (s.waiters w).queued = false) :
    Fair s.log (.grant w) ↔ s.head = none := by
  have hl : l.takeWhile (· ≠ w) = l := by
    rw [takeWhile_eq_self_iff]
    intro u hu
    simp only [ne_eq, decide_not, Bool.not_eq_eq_eq_not, Bool.not_true, decide_eq_false_iff_not]
    rintro rfl
    rw [h.mem_iff, hw] at hu
    cases hu
  rw [Fair, h.line_eq, hl, h.dlq.head_eq, head?_eq_none_iff]

end

omit [DecidableEq ν] in
theorem pay_log (s : Sem ν γ) (n : ℕ) (g : Option γ) : (s.pay n g).log = s.log := by cases g <;> rfl

theorem Sem.Orderly.resetGuard (ho : s.Orderly) (h : Ok s l)
    (g : γ) : (s.resetGuard g).Orderly := by
  rw [Sem.resetGuard]
  cases s.guards g with
  | none => exact ho
  | some n => exact ho.release h n

theorem orderly_acquire_iff (h : Ok s l) (ho : s.Orderly) (hw : (s.waiters w).stage = .unborn) :
    (s.acquire w n g).Orderly ↔ Patient s (.acquire w n g) := by
  have hq : (s.waiters w).queued = false := h.not_queued (by rw [hw]; nofun)
  rw [Sem.acquire, Patient]
  by_cases hab : s.aborted = true
  · rw [if_pos hab]
    exact iff_of_true ho (.inl hab)
  · rw [if_neg hab]
    by_cases hfit : n ≤ s.count
    · rw [if_pos hfit, Sem.Orderly, pay_log]
      change Throughout Fair (s.log ++ [_]) ↔ _
      rw [throughout_snoc, h.fair_serve_iff hq]
      simp only [hab, Bool.false_eq_true, false_or, not_lt.mpr hfit]
      exact and_iff_right ho
    · rw [if_neg hfit, Sem.Orderly, suspend_log]
      exact iff_of_true (ho.snoc trivial) (.inr (.inl (not_le.mp hfit)))

/-- **One step**: it keeps the order unless it is a fast path past a queue. -/
theorem orderly_move_iff {a : Act ν γ} (h : Ok s l) (ho : s.Orderly) (hmove : Move s a t) :
    t.Orderly ↔ Patient s a := by
  cases hmove with
  | acquire w n g hw => exact orderly_acquire_iff h ho hw
  | resume w g =>
    refine iff_of_true ?_ trivial
    rw [Sem.resume]
    split_ifs
    · rw [Sem.Orderly, pay_log]
      exact ho
    · exact ho
  | destroy w => exact iff_of_true (ho.destroy h w) trivial
  | tryAcquire n =>
    refine iff_of_true ?_ trivial
    rw [Sem.tryAcquire]
    split_ifs <;> exact ho
  | release n => exact iff_of_true (ho.release h n) trivial
  | resetGuard g => exact iff_of_true (ho.resetGuard h g) trivial
  | moveGuard g g' => exact iff_of_true ho trivial
  | assignGuard g g' =>
    refine iff_of_true ?_ trivial
    rw [Sem.assignGuard]
    split_ifs
    · exact ho
    · exact ho.resetGuard h g
  | abort err =>
    refine iff_of_true ?_ trivial
    rw [Sem.abort]
    split_ifs
    · exact ho
    · exact refuseAll_induction (P := Sem.Orderly) _ (fun _ _ ho => ho.leave) _ ho

/-- **Strict order, exactly**: while nobody takes the fast path past a queue every grant goes to
whoever has waited longest; and the first time somebody does, one goes past. -/
theorem fifo_iff {initial : ℕ} {as : List (Act ν γ)} (h : Run step Patient (make initial) as s) :
    s.Orderly ∧ ∀ a t, step s a = some t → (t.Orderly ↔ Patient s a) := by
  obtain ⟨⟨l, hs⟩, ho⟩ : (∃ l, Ok s l) ∧ s.Orderly := by
    refine Run.invariant (I := fun s => (∃ l, Ok s l) ∧ s.Orderly)
      ⟨⟨[], ok_make initial⟩, throughout_nil⟩ ?_ h
    rintro s a t ⟨⟨l, hs⟩, ho⟩ hok hst
    have hmove := move_of_step hst
    exact ⟨hs.move hmove, (orderly_move_iff hs ho hmove).mpr hok⟩
  exact ⟨ho, fun a t hst => orderly_move_iff hs ho (move_of_step hst)⟩

/-- Two wait in turn, and a release serves both. -/
def turnsWord : List (Act ℕ ℕ) :=
  [.acquire 0 1 none, .acquire 1 2 none, .acquire 2 1 (some 0), .release 3, .resume 1 none,
    .resume 2 (some 0)]

theorem fifo_iff_turns : ∃ s : Sem ℕ ℕ, Run step Patient (make 1) turnsWord s ∧ s.Orderly ∧
    s.log = [.grant 0, .queue 1, .queue 2, .grant 1, .grant 2] :=
  Run.exists_and_of_mem (fun h => (fifo_iff h).1) (by decide +kernel)

/-- **The queue is passed.**  One permit is left; a first caller needs two and waits, a second needs
one and gets it. -/
theorem small_need_passes_queue : ∃ s : Sem ℕ ℕ,
    Run step (fun _ _ => True) (make 1) [.acquire 0 2 none, .acquire 1 1 none] s ∧
      line s.log = [0] ∧ ¬ s.Orderly := by
  have hend : ∃ s ∈ exec step (fun _ _ => True) (make 1 : Sem ℕ ℕ) [.acquire 0 2 none,
    .acquire 1 1 none],
      s.log = [.queue 0, .grant 1] := by
    decide +kernel
  obtain ⟨s, hs, hlog⟩ := hend
  refine ⟨s, .of_exec hs, by rw [hlog]; rfl, fun ho => ?_⟩
  have hfair : Fair [.queue 0] (.grant 1) := ho [.queue 0] (.grant 1) [] hlog
  simp [Fair, line, stand] at hfair

/-! ## Nobody waits for what is there -/

/-- While the semaphore is open, the head waits for more than there is. -/
def Sem.Watched (s : Sem ν γ) : Prop := s.aborted = false → s.Tight

/-- The head is not destroyed in front of somebody who could be served. -/
def Careful (s : Sem ν γ) : Act ν γ → Prop
  | .destroy w =>
    s.aborted = false → s.head = some w → ∀ u ∈ (s.waiters w).next, s.count < (s.waiters u).need
  | _ => True

instance (s : Sem ν γ) : ∀ a, Decidable (Careful s a)
  | .destroy w =>
    inferInstanceAs
      (Decidable (s.aborted = false → s.head = some w → ∀ u ∈ (s.waiters w).next,
        s.count < (s.waiters u).need))
  | .acquire .. | .resume .. | .tryAcquire _ | .release _ | .resetGuard _ | .moveGuard .. |
    .assignGuard ..
  | .abort _ => isTrue trivial

section

omit [DecidableEq γ]

/-- The same head, no more permits. -/
theorem Sem.Tight.mono (ht : s.Tight) (h : Ok s l) (hhead : t.head = s.head)
    (hcount : t.count ≤ s.count)
    (hneed : ∀ u, (s.waiters u).queued = true →
      (t.waiters u).need = (s.waiters u).need) : t.Tight := by
  intro u hu
  rw [hhead] at hu
  have hmem : u ∈ l := mem_of_mem_head? (h.dlq.head_eq ▸ hu)
  rw [hneed u ((h.mem_iff u).mp hmem)]
  exact hcount.trans_lt (ht u hu)

theorem wake_aborted (h : Ok s l) : s.wake.aborted = s.aborted := by
  refine (wake_induction (P := fun r => r.aborted = s.aborted) (fun _ _ hr => ?_) h rfl).2
  exact (unlink_aborted _ _).trans hr

theorem watched_wake (h : Ok s l) : s.wake.Watched := by
  intro hab
  rw [wake_aborted h] at hab
  rw [Sem.wake, if_neg (by rw [hab]; nofun)]
  exact tight_wakeReady _ h h.length_lt

theorem Sem.Watched.release (hs : s.Watched) (h : Ok s l) (n : ℕ) : (s.release n).Watched := by
  rw [Sem.release]
  split_ifs
  · exact hs
  · exact watched_wake (h.add n)

theorem put_need {f : Waiter ν → Waiter ν} (hw : (s.waiters w).queued = false) {u : ν}
    (hu : (s.waiters u).queued = true) : ((s.put w f).waiters u).need = (s.waiters u).need := by
  have hne : u ≠ w := by
    rintro rfl
    rw [hw] at hu
    cases hu
  rw [put_apply, if_neg hne]

/-- **A waiter is destroyed**: it is missed only if it was the head and the next could be served. -/
theorem watched_destroy_iff (hs : s.Watched) (h : Ok s l) : (s.destroy w).Watched ↔
    Careful s (.destroy w) := by
  have hcareful (hq : (s.waiters w).queued = false) : Careful s (.destroy w) := by
    intro _ hfirst
    have := (h.mem_iff w).mp (mem_of_mem_head? (h.dlq.head_eq ▸ hfirst))
    rw [hq] at this
    cases this
  rcases destroy_cases h (w := w) with ⟨hw, heq⟩ | ⟨hq, -, -, heq⟩ | ⟨hq, -, heq⟩
  · have hself : (s.waiters w).queued = true := (h.mem_iff w).mp hw
    have hneed {u : ν} : ((s.destroy w).waiters u).need = (s.waiters u).need := by
      rw [heq, put_apply]
      split_ifs with hu
      · change ((s.unlink w).waiters w).need = _
        rw [unlink_apply, if_pos rfl, hu]
      · change ((s.unlink w).waiters u).need = _
        rw [unlink_apply, if_neg hu]
    have hcount : (s.destroy w).count = s.count := by
      rw [heq]
      exact unlink_count s w
    have habort : (s.destroy w).aborted = s.aborted := by
      rw [heq]
      exact unlink_aborted s w
    have hhead : (s.destroy w).head = if (s.waiters w).prev = none then (s.waiters w).next
      else s.head := by
      rw [heq]
      exact unlink_head s w
    have hprev : (s.waiters w).prev = none ↔ s.head = some w := by
      obtain ⟨a, c, rfl⟩ := append_of_mem hw
      have hp : (s.waiters w).prev = a.getLast? := h.dlq.prev_eq
      rw [hp, h.dlq.head_eq]
      cases a with
      | nil => simp
      | cons x a =>
        have hne : x ≠ w := by
          rintro rfl
          exact (nodup_cons.mp h.dlq.nodup).1 (mem_append_right a mem_cons_self)
        simp [hne]
    rw [Sem.Watched, Careful, habort, Sem.Tight, hcount, hhead]
    refine imp_congr_right fun hab => ?_
    simp only [hneed]
    by_cases hfirst : s.head = some w
    · rw [if_pos (hprev.mpr hfirst)]
      simp only [hfirst, forall_const]
      exact Iff.rfl
    · rw [if_neg (mt hprev.mp hfirst)]
      simp only [hfirst, false_imp_iff, iff_true]
      exact fun u hu => hs hab u hu
  · exact iff_of_true (heq ▸ watched_wake ((h.gone hq).add _)) (hcareful hq)
  · refine iff_of_true ?_ (hcareful hq)
    rw [heq]
    exact fun hab => (hs hab).mono h rfl le_rfl fun u hu => put_need hq hu

theorem tight_suspend (hs : s.Tight) (hn : s.count < n) :
    (s.suspend w n).Tight := by
  have hcount : (s.suspend w n).count = s.count := (congrArg Sem.count (books_suspend s w n) :)
  have hneed (u : ν) : ((s.suspend w n).waiters u).need = if u = w then n
    else (s.waiters u).need := by
    change (((s.put w _).setNext s.tail (some w)).waiters u).need = _
    rw [setNext_apply, put_apply]
    split_ifs <;> rfl
  intro u hu
  rw [hcount, hneed]
  rw [suspend_head] at hu
  by_cases hu' : u = w
  · rwa [if_pos hu']
  · rw [if_neg hu']
    split_ifs at hu
    · exact absurd (Option.some.inj hu).symm hu'
    · exact hs u hu

end

omit [DecidableEq ν] in
theorem pay_tight_iff (s : Sem ν γ) (n : ℕ) (g : Option γ) :
    (s.pay n g).Watched ↔ s.Watched := by
  cases g <;> rfl

theorem Sem.Watched.acquire (hs : s.Watched) (h : Ok s l) (hw : (s.waiters w).stage = .unborn) :
    (s.acquire w n g).Watched := by
  have hq : (s.waiters w).queued = false := h.not_queued (by rw [hw]; nofun)
  rw [Sem.acquire]
  split_ifs with hab hfit
  · exact fun hc => absurd (hc.symm.trans hab) nofun
  · rw [pay_tight_iff]
    refine fun hab => (hs hab).mono h rfl (Nat.sub_le _ _) fun u hu => ?_
    exact put_need (f := fun _ => { need := n, granted := true, consumed := true, stage := .gone })
      hq hu
  · intro hab
    have hopen : s.aborted = false := by simpa using ‹¬ s.aborted = true›
    exact tight_suspend (hs hopen) (not_le.mp hfit)

theorem Sem.Watched.resume (hs : s.Watched) (h : Ok s l)
    (hw : w ∈ s.ready) : (s.resume w g).Watched := by
  have hput : (s.put w fun e => { e with consumed := true, stage := .gone }).Watched :=
    fun hab => (hs hab).mono h rfl le_rfl fun u hu => put_need (h.woken w hw) hu
  rw [Sem.resume]
  split_ifs
  · rwa [pay_tight_iff]
  · exact hput

theorem Sem.Watched.resetGuard (hs : s.Watched) (h : Ok s l)
    (g : γ) : (s.resetGuard g).Watched := by
  rw [Sem.resetGuard]
  cases s.guards g with
  | none => exact hs
  | some n => exact hs.release h n

theorem watched_move_iff {a : Act ν γ} (hs : s.Watched) (h : Ok s l) (hmove : Move s a t) :
    t.Watched ↔ Careful s a := by
  cases hmove with
  | acquire w n g hw => exact iff_of_true (hs.acquire h hw) trivial
  | resume w g _ hready => exact iff_of_true (hs.resume h hready) trivial
  | destroy w => exact watched_destroy_iff hs h
  | tryAcquire n =>
    refine iff_of_true ?_ trivial
    rw [Sem.tryAcquire]
    split_ifs
    · exact hs
    · exact fun hab => (hs hab).mono h rfl (Nat.sub_le _ _) fun _ _ => rfl
  | release n => exact iff_of_true (hs.release h n) trivial
  | resetGuard g => exact iff_of_true (hs.resetGuard h g) trivial
  | moveGuard g g' => exact iff_of_true hs trivial
  | assignGuard g g' =>
    refine iff_of_true ?_ trivial
    rw [Sem.assignGuard]
    split_ifs
    · exact hs
    · exact hs.resetGuard h g
  | abort err =>
    refine iff_of_true ?_ trivial
    rw [Sem.abort]
    split_ifs
    · exact hs
    · intro hab
      have htrue := refuseAll_induction (P := fun t => t.aborted = true) err
        (fun s w hs => (unlink_aborted s w).trans hs) s.turns
          (s := { s with aborted := true, abortErr := err }) rfl
      exact absurd (hab.symm.trans htrue) nofun

/-- **No lost wakeup, exactly**: while no head is destroyed in front of somebody who could be
served, whoever is first in the queue needs more than there is; and the first time one is, somebody
waits for nothing. -/
theorem watched_iff {initial : ℕ} {as : List (Act ν γ)} (h : Run step Careful (make initial) as s) :
    s.Watched ∧ ∀ a t, step s a = some t → (t.Watched ↔ Careful s a) := by
  obtain ⟨⟨l, hs⟩, hw⟩ : (∃ l, Ok s l) ∧ s.Watched := by
    refine Run.invariant (I := fun s => (∃ l, Ok s l) ∧ s.Watched)
      ⟨⟨[], ok_make initial⟩, fun _ _ => nofun⟩ ?_ h
    rintro s a t ⟨⟨l, hs⟩, hw⟩ hok hst
    have hmove := move_of_step hst
    exact ⟨hs.move hmove, (watched_move_iff hw hs hmove).mpr hok⟩
  exact ⟨hw, fun a t hst => watched_move_iff hw hs (move_of_step hst)⟩

/-- The last in the queue is destroyed, and one whose permits were granted. -/
def leaversWord : List (Act ℕ ℕ) :=
  [.acquire 0 2 none, .acquire 1 3 none, .acquire 2 1 none, .destroy 2, .release 2, .destroy 0]

theorem watched_iff_leavers : ∃ s : Sem ℕ ℕ, Run step Careful (make 0) leaversWord s ∧ s.Watched ∧
    s.head = some 1 ∧ s.count = 2 :=
  Run.exists_and_of_mem (fun h => (watched_iff h).1) (by decide +kernel)

/-- **A lost wakeup.**  The first in the queue needs two permits, the second one; one is released.
Then the first is destroyed, and the second goes on waiting for the permit that is there. -/
theorem destroyed_head_leaves_waiter : ∃ s : Sem ℕ ℕ,
    Run step (fun _ _ => True) (make 0)
      [.acquire 0 2 none, .acquire 1 1 none, .release 1, .destroy 0] s ∧
      s.aborted = false ∧ s.head = some 1 ∧ (s.waiters 1).need ≤ s.count :=
  Run.exists_of_mem (by decide +kernel)

end Cornet.Semaphore
