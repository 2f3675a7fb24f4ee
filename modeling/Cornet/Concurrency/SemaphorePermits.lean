import Cornet.Concurrency.SemaphoreRuns

/-!
# Concurrency/SemaphorePermits — where the permits are

    count  +  held by callers and guards  +  granted, not yet consumed   =   initial + released

A permit is in the counter, with a caller or a guard, or on its way to a waiter that was granted it
and has not run.  Every step moves permits between the three, and only `release` makes new ones.
Beside the ledger stand the two facts about the queue: who is scheduled, and in which order the
others wait.
-/

namespace Cornet.Semaphore

open List Family

variable {ν γ : Type*} [DecidableEq ν] [DecidableEq γ] {s t : Sem ν γ} {l : List ν} {w : ν} {n : ℕ}
  {g : Option γ}

/-- Permits granted to a waiter that has not been resumed. -/
def Waiter.owed (e : Waiter ν) : ℕ :=
  if e.stage = .suspended ∧ e.granted = true ∧ e.consumed = false then e.need else 0

/-- Permits granted but not yet consumed. -/
def Sem.owed (s : Sem ν γ) : ℕ := s.waiters.sum Waiter.owed

/-- Permits that resumed callers have, themselves or in a guard. -/
def Sem.held (s : Sem ν γ) : ℕ := s.taken + s.guards.sum (·.getD 0)

/-- Every permit there is. -/
def Sem.total (s : Sem ν γ) : ℕ := s.count + s.held + s.owed

/-- The counter does not wrap around. -/
def Fits (s : Sem ν γ) : Act ν γ → Prop
  | .release n => s.count + n < kPermits
  | .resetGuard g | .assignGuard g _ => ∀ n ∈ s.guards g, s.count + n < kPermits
  | .destroy w => s.count + (s.waiters w).owed < kPermits
  | _ => True

instance (s : Sem ν γ) (a : Act ν γ) : Decidable (Fits s a) := by
  cases a <;> simp only [Fits] <;> infer_instance

section

omit [DecidableEq γ]

theorem owed_put {f : Waiter ν → Waiter ν} (hf : (f (s.waiters w)).owed = (s.waiters w).owed) :
    (s.put w f).owed = s.owed :=
  sum_set_of_eq rfl hf

theorem owed_setNext (s : Sem ν γ) (p x : Option ν) : (s.setNext p x).owed = s.owed := by
  cases p with
  | none => rfl
  | some p => exact owed_put rfl

theorem owed_setPrev (s : Sem ν γ) (x p : Option ν) : (s.setPrev x p).owed = s.owed := by
  cases x with
  | none => rfl
  | some x => exact owed_put rfl

theorem owed_unlink (s : Sem ν γ) (w : ν) : (s.unlink w).owed = s.owed :=
  (owed_put rfl).trans ((owed_setPrev _ _ _).trans (owed_setNext _ _ _))

theorem held_unlink (s : Sem ν γ) (w : ν) : (s.unlink w).held = s.held :=
  (congrArg Sem.held (books_unlink s w) :)

/-- **A grant moves permits**, from the counter to the waiter. -/
theorem total_grant (h : Ok s (w :: l))
    (hfit : (s.waiters w).need ≤ s.count) : (s.grant w).total = s.total := by
  obtain ⟨hstage, hgranted⟩ := h.waits w h.queued_of_head
  have hentry : (s.unlink w).waiters w =
    { s.waiters w with next := none, prev := none, queued := false } := by
    rw [unlink_apply, if_pos rfl]
  have hsum := sum_set (f := Waiter.owed) rfl (s.unlink w).waiters w
    { (s.unlink w).waiters w with granted := true }
  have hbefore : ((s.unlink w).waiters w).owed = 0 := by
    rw [hentry, Waiter.owed]
    simp [hgranted]
  have hafter : ({ (s.unlink w).waiters w with granted := true } : Waiter ν).owed = (s.waiters
    w).need := by
    rw [hentry, Waiter.owed]
    simp [hstage, h.fresh w hstage]
  have howed : (s.grant w).owed = s.owed + (s.waiters w).need := by
    have hrest := owed_unlink s w
    change ((s.unlink w).waiters.set w { (s.unlink w).waiters w with granted := true }).sum
      Waiter.owed = _
    rw [Sem.owed] at hrest
    omega
  have hcount : (s.grant w).count = s.count - (s.waiters w).need := by
    change (s.unlink w).count - (((s.unlink w).put w _).waiters w).need = _
    rw [unlink_count, put_apply, if_pos rfl, hentry]
  rw [Sem.total, howed, hcount, show (s.grant w).held = s.held from held_unlink s w, Sem.total]
  omega

/-- Waking keeps every permit, and does not touch guards. -/
theorem wake_kept (h : Ok s l) :
    s.wake.total = s.total ∧ s.wake.released = s.released ∧ s.wake.guards = s.guards ∧
      s.wake.taken = s.taken := by
  refine (wake_induction
    (P := fun r => r.total = s.total ∧ r.released = s.released ∧ r.guards = s.guards ∧
      r.taken = s.taken)
    (fun {r w _} hr hfit ⟨h₁, h₂, h₃, h₄⟩ => ?_) h ⟨rfl, rfl, rfl, rfl⟩).2
  have hbooks := books_unlink r w
  exact ⟨(total_grant hr hfit).trans h₁, (congrArg Sem.released hbooks :).trans h₂,
    (congrArg Sem.guards hbooks :).trans h₃, (congrArg Sem.taken hbooks :).trans h₄⟩

omit [DecidableEq ν] in
theorem total_add (hn : s.count + n < kPermits) : (s.add n).total = s.total + n := by
  change (s.count + n) % kPermits + s.held + s.owed = s.count + s.held + s.owed + n
  rw [Nat.mod_eq_of_lt hn]
  omega

/-- A release adds its permits. -/
theorem release_kept (h : Ok s l) (hn : s.count + n < kPermits) :
    (s.release n).total = s.total + n ∧ (s.release n).released = s.released ∧
      (s.release n).guards = s.guards ∧
      (s.release n).taken = s.taken := by
  rw [Sem.release]
  split_ifs with hz
  · subst hz
    exact ⟨rfl, rfl, rfl, rfl⟩
  · obtain ⟨h₁, h₂, h₃, h₄⟩ := wake_kept (h.add n)
    exact ⟨h₁.trans (total_add hn), h₂, h₃, h₄⟩

/-- A write to an awaiter moves what it is owed. -/
theorem total_put {f : Waiter ν → Waiter ν} :
    (s.put w f).total + (s.waiters w).owed = s.total + (f (s.waiters w)).owed := by
  have hsum := sum_set (f := Waiter.owed) rfl s.waiters w (f (s.waiters w))
  change s.count + s.held + (s.waiters.set w (f (s.waiters w))).sum Waiter.owed + _ =
    s.count + s.held + s.waiters.sum Waiter.owed + _
  omega

/-- A write that leaves the awaiter's claim alone. -/
theorem total_put_of_eq {f : Waiter ν → Waiter ν}
    (hf : (f (s.waiters w)).owed = (s.waiters w).owed) :
    (s.put w f).total = s.total := by
  have hput := total_put (s := s) (w := w) (f := f)
  omega

theorem total_unlink (s : Sem ν γ) (w : ν) : (s.unlink w).total = s.total := by
  rw [Sem.total, unlink_count, held_unlink, owed_unlink, Sem.total]

theorem released_unlink (s : Sem ν γ) (w : ν) : (s.unlink w).released = s.released :=
  (congrArg Sem.released (books_unlink s w) :)

/-- A suspended waiter that was granted its permits is owed them, and no other. -/
theorem Ok.owed_eq (h : Ok s l) (hw : (s.waiters w).stage = .suspended)
    (hg : (s.waiters w).granted = true) :
    (s.waiters w).owed = (s.waiters w).need := by
  rw [Waiter.owed]
  simp [hw, hg, h.fresh w hw]

/-- The frame goes, and with it what its awaiter is owed. -/
theorem total_gone {f : Waiter ν → Waiter ν} (hf : (f (s.waiters w)).stage = .gone) :
    (s.put w f).total + (s.waiters w).owed = s.total := by
  have hgone : (f (s.waiters w)).owed = 0 := by
    rw [Waiter.owed, hf]
    exact if_neg nofun
  rw [total_put, hgone, Nat.add_zero]

theorem destroy_kept (h : Ok s l) (hw : (s.waiters w).stage = .suspended)
    (hfits : s.count + (s.waiters w).owed < kPermits) :
    (s.destroy w).total = s.total ∧ (s.destroy w).released = s.released := by
  have hput := total_gone (s := s) (w := w) (f := fun e => { e with stage := .gone }) rfl
  rcases destroy_cases h (w := w) with ⟨hmem, heq⟩ | ⟨hq, hgranted, -, heq⟩ | ⟨-, hnone, heq⟩
  · rw [heq]
    have hleft : ((s.unlink w).waiters w).owed = 0 := by
      rw [unlink_apply, if_pos rfl, Waiter.owed]
      simp [(h.waits w ((h.mem_iff w).mp hmem)).2]
    have hkept := total_gone (s := (s.unlink w).record (.leave w)) (w := w)
      (f := fun e => { e with stage := .gone }) rfl
    rw [show (((s.unlink w).record (.leave w)).waiters w).owed = 0 from hleft] at hkept
    exact ⟨hkept.trans (total_unlink s w), released_unlink s w⟩
  · rw [h.owed_eq hw hgranted] at hfits hput
    obtain ⟨h₁, h₂, -⟩ := wake_kept ((h.gone hq).add (s.waiters w).need)
    have hadd := total_add (s := s.put w fun e => { e with stage := .gone }) hfits
    exact heq ▸ ⟨h₁.trans (hadd.trans hput), h₂⟩
  · have howed : (s.waiters w).owed = 0 := by
      rw [Waiter.owed, if_neg]
      rintro ⟨-, hg, hc⟩
      rcases hnone with hn | hn
      · exact absurd (hn.symm.trans hg) nofun
      · exact absurd (hn.symm.trans hc) nofun
    rw [howed] at hput
    exact heq ▸ ⟨hput, rfl⟩

theorem refuse_kept (s : Sem ν γ) (err : Error) (w : ν) :
    (s.refuse err w).total = s.total ∧ (s.refuse err w).released = s.released := by
  have hkept := total_put_of_eq (s := s.unlink w) (w := w) (f := fun e => { e with err := err }) rfl
  exact ⟨hkept.trans (total_unlink s w), released_unlink s w⟩

end

omit [DecidableEq ν] in
/-- Permits that are paid out are held. -/
theorem total_pay (hg : s.Free g) : (s.pay n g).total = s.total + n ∧
    (s.pay n g).released = s.released := by
  cases g with
  | none =>
    refine ⟨?_, rfl⟩
    change s.count + (s.taken + n + s.guards.sum (·.getD 0)) + s.owed = s.count +
      (s.taken + s.guards.sum (·.getD 0)) +
      s.owed + n
    omega
  | some g =>
    refine ⟨?_, rfl⟩
    have hsum := sum_set (f := fun o : Option ℕ => o.getD 0) rfl s.guards g (some n)
    rw [hg g rfl] at hsum
    change s.count + (s.taken + (s.guards.set g (some n)).sum (·.getD 0)) + s.owed =
      s.count + (s.taken + s.guards.sum (·.getD 0)) + s.owed + n
    simp only [Option.getD_none, Option.getD_some, Nat.add_zero] at hsum
    omega

omit [DecidableEq γ] in
/-- A fresh awaiter is owed nothing yet, however it starts. -/
theorem total_put_unborn (hw : (s.waiters w).stage = .unborn) {e : Waiter ν} (he : e.owed = 0) :
    (s.put w fun _ => e).total = s.total := by
  refine total_put_of_eq (he.trans ?_)
  rw [Waiter.owed, if_neg]
  rintro ⟨hc, -⟩
  exact absurd (hw.symm.trans hc) nofun

omit [DecidableEq γ] in
theorem suspend_kept (hw : (s.waiters w).stage = .unborn) (n : ℕ) :
    (s.suspend w n).total = s.total ∧ (s.suspend w n).released = s.released := by
  have hput := total_put_unborn hw
    (e := { need := n, queued := true, prev := s.tail, stage := .suspended })
    (by simp [Waiter.owed])
  have hbooks := books_suspend s w n
  refine ⟨Eq.trans ?_ hput, (congrArg Sem.released hbooks :)⟩
  have howed : (s.suspend w n).owed = _ := owed_setNext (s.put w _) s.tail (some w)
  have hcount : (s.suspend w n).count = s.count := (congrArg Sem.count hbooks :)
  have hheld : (s.suspend w n).held = s.held := (congrArg Sem.held hbooks :)
  rw [Sem.total, howed, hcount, hheld]
  rfl

omit [DecidableEq γ] in
theorem serve_kept (hw : (s.waiters w).stage = .unborn) (hn : n ≤ s.count) :
    (s.serve w n).total + n = s.total ∧ (s.serve w n).released = s.released := by
  have hput := total_put_unborn hw
    (e := { need := n, granted := true, consumed := true, stage := .gone })
    (by simp [Waiter.owed])
  refine ⟨?_, rfl⟩
  generalize hm : (s.put w fun _ =>
    { need := n, granted := true, consumed := true, stage := .gone }) = m at hput
  have hcount : m.count = s.count := by rw [← hm]; rfl
  have hserve : s.serve w n = { m with count := m.count - n }.record (.grant w) := by rw [← hm]; rfl
  rw [hserve]
  change m.count - n + m.held + m.owed + n = s.total
  rw [← hput, Sem.total]
  omega

theorem acquire_kept (hw : (s.waiters w).stage = .unborn) (hg : s.Free g) :
    (s.acquire w n g).total = s.total ∧ (s.acquire w n g).released = s.released := by
  rw [Sem.acquire]
  split_ifs with _ hfit
  · exact ⟨total_put_unborn hw (by simp [Waiter.owed]), rfl⟩
  · obtain ⟨h₁, h₂⟩ := serve_kept hw hfit
    obtain ⟨h₃, h₄⟩ := total_pay (s := s.serve w n) (n := n) (g := g) hg
    exact ⟨h₃.trans h₁, h₄.trans h₂⟩
  · exact suspend_kept hw n

theorem resume_kept (h : Ok s l) (hw : (s.waiters w).stage = .suspended) (hg : s.Free g) :
    (s.resume w g).total = s.total ∧ (s.resume w g).released = s.released := by
  have hput := total_gone (s := s) (w := w)
    (f := fun e => { e with consumed := true, stage := .gone }) rfl
  rw [Sem.resume]
  split_ifs with hgranted
  · rw [h.owed_eq hw hgranted] at hput
    obtain ⟨h₁, h₂⟩ := total_pay (s := s.put w fun e => { e with consumed := true, stage := .gone })
      (n := (s.waiters w).need) (g := g) hg
    exact ⟨h₁.trans hput, h₂⟩
  · rw [Waiter.owed, if_neg fun hc => hgranted hc.2.1] at hput
    exact ⟨hput, rfl⟩

theorem resetGuard_kept {g : γ} (h : Ok s l) (hfits : ∀ n ∈ s.guards g, s.count + n < kPermits) :
    (s.resetGuard g).total = s.total ∧ (s.resetGuard g).released = s.released ∧
      (s.resetGuard g).guards g = none := by
  rw [Sem.resetGuard]
  cases hguard : s.guards g with
  | none => exact ⟨rfl, rfl, hguard⟩
  | some n =>
    obtain ⟨h₁, h₂, h₃, h₄⟩ := release_kept h (hfits n hguard)
    refine ⟨?_, h₂, set_self _ _ _⟩
    have hsum := sum_set (f := fun o : Option ℕ => o.getD 0) rfl s.guards g none
    rw [hguard] at hsum
    simp only [Option.getD_none, Option.getD_some, Nat.add_zero] at hsum
    have htotal : (s.release n).count + (s.taken + s.guards.sum (·.getD 0)) +
      (s.release n).owed = s.total + n := by
      rw [← h₁, Sem.total, Sem.held, h₃, h₄]
    change (s.release n).count + ((s.release n).taken + (s.guards.set g none).sum (·.getD 0)) +
      (s.release n).owed = _
    rw [h₄]
    omega

omit [DecidableEq ν] in
theorem moveGuard_kept {g g' : γ} (hg : s.guards g' = none) :
    (s.moveGuard g g').total = s.total ∧ (s.moveGuard g g').released = s.released := by
  refine ⟨?_, rfl⟩
  have h₁ := sum_set (f := fun o : Option ℕ => o.getD 0) rfl s.guards g' (s.guards g)
  have h₂ := sum_set (f := fun o : Option ℕ => o.getD 0) rfl (s.guards.set g' (s.guards g)) g none
  rw [set_apply, ite_self] at h₂
  simp only [hg, Option.getD_none, Nat.add_zero] at h₁ h₂
  change s.count + (s.taken + ((s.guards.set g' (s.guards g)).set g none).sum (·.getD 0)) + s.owed =
    s.count + (s.taken + s.guards.sum (·.getD 0)) + s.owed
  omega

/-- **One step**: it keeps every permit, and a release adds to them. -/
theorem move_kept {a : Act ν γ} (h : Ok s l) (hfits : Fits s a) (hmove : Move s a t) :
    t.total + s.released = s.total + t.released := by
  cases hmove with
  | acquire w n g hw hg =>
    obtain ⟨h₁, h₂⟩ := acquire_kept (n := n) hw hg
    rw [h₁, h₂]
  | resume w g hw _ hg =>
    obtain ⟨h₁, h₂⟩ := resume_kept h hw hg
    rw [h₁, h₂]
  | destroy w hw =>
    obtain ⟨h₁, h₂⟩ := destroy_kept h hw hfits
    rw [h₁, h₂]
  | tryAcquire n =>
    rw [Sem.tryAcquire]
    split_ifs with hshort
    · rfl
    · have hle : n ≤ s.count := by
        simp only [Bool.or_eq_true, decide_eq_true_eq, not_or, not_lt] at hshort
        exact hshort.2
      change s.count - n + (s.taken + n + s.guards.sum (·.getD 0)) + s.owed + s.released =
        s.count + (s.taken + s.guards.sum (·.getD 0)) + s.owed + s.released
      omega
  | release n =>
    obtain ⟨h₁, -, h₃, h₄⟩ := release_kept h hfits
    have htotal : (s.releaseBy n).total = s.total + n := h₁
    rw [htotal]
    change s.total + n + s.released = s.total + (s.released + n)
    omega
  | resetGuard g =>
    obtain ⟨h₁, h₂, -⟩ := resetGuard_kept h hfits
    rw [h₁, h₂]
  | moveGuard g g' hg =>
    obtain ⟨h₁, h₂⟩ := moveGuard_kept (g := g) hg
    rw [h₁, h₂]
  | assignGuard g g' =>
    rw [Sem.assignGuard]
    split_ifs
    · rfl
    · obtain ⟨h₁, h₂, h₃⟩ := resetGuard_kept h hfits
      obtain ⟨h₄, h₅⟩ := moveGuard_kept (s := s.resetGuard g) (g := g') h₃
      rw [h₄, h₁, h₅, h₂]
  | abort err =>
    rw [Sem.abort]
    split_ifs
    · rfl
    · obtain ⟨h₁, h₂⟩ :=
        refuseAll_induction (P := fun t => t.total = s.total ∧ t.released = s.released) err
        (fun t w ht => ⟨(refuse_kept t err w).1.trans ht.1, (refuse_kept t err w).2.trans ht.2⟩)
          s.turns
        (s := { s with aborted := true, abortErr := err }) ⟨rfl, rfl⟩
      rw [h₁, h₂]

/-! ## Arrivals -/

/-- The awaiters that suspended, in the order they came. -/
def arrivals (log : List (Event ν)) : List ν :=
  log.filterMap fun
    | .queue w => some w
    | _ => none

omit [DecidableEq ν] in
theorem arrivals_snoc (log : List (Event ν)) (e : Event ν) :
    arrivals (log ++ [e]) = arrivals log ++ arrivals [e] := filterMap_append

/-- Who waits came in that order. -/
theorem line_sublist_arrivals (log : List (Event ν)) : (line log).Sublist (arrivals log) := by
  induction log using List.reverseRecOn with
  | nil => exact .slnil
  | append_singleton log e ih =>
    rw [line_snoc, arrivals_snoc]
    cases e with
    | queue w => exact ih.append (.refl _)
    | grant | leave => exact (erase_sublist.trans ih).trans (sublist_append_left _ _)

/-- Nobody arrives, and no awaiter is made unborn. -/
structure Calm (s t : Sem ν γ) : Prop where
  arrivals_eq : arrivals t.log = arrivals s.log
  born : ∀ u, (t.waiters u).stage = .unborn → (s.waiters u).stage = .unborn

namespace Calm

section

omit [DecidableEq ν] [DecidableEq γ]

protected theorem refl (s : Sem ν γ) : Calm s s := ⟨rfl, fun _ hu => hu⟩

theorem trans {r : Sem ν γ} (h : Calm s t) (h' : Calm t r) : Calm s r :=
  ⟨h'.1.trans h.1, fun u hu => h.2 u (h'.2 u hu)⟩

/-- Permits, guards and the ready queue are not part of it. -/
theorem congr {r : Sem ν γ} (h : Calm s t) (hlog : arrivals r.log = arrivals t.log)
    (hwaiters : r.waiters = t.waiters) :
    Calm s r :=
  ⟨hlog.trans h.1, fun u hu => h.2 u (hwaiters ▸ hu)⟩

end

section

omit [DecidableEq γ]

theorem put (s : Sem ν γ) (w : ν) (f : Waiter ν → Waiter ν)
    (hf : (f (s.waiters w)).stage = .unborn → (s.waiters w).stage = .unborn) : Calm s
      (s.put w f) where
  arrivals_eq := rfl
  born u hu := by
    rw [put_apply] at hu
    split_ifs at hu with hw
    · exact hw ▸ hf hu
    · exact hu

theorem unlink (s : Sem ν γ) (w : ν) : Calm s (s.unlink w) where
  arrivals_eq := by rw [unlink_log]
  born u hu := by
    rw [unlink_apply] at hu
    by_cases hw : u = w
    · rw [if_pos hw] at hu
      exact hw ▸ hu
    · rw [if_neg hw] at hu
      exact hu

theorem grant (s : Sem ν γ) (w : ν) : Calm s (s.grant w) := by
  refine ((unlink s w).trans (put _ w (fun e => { e with granted := true }) id)).congr ?_ rfl
  exact (arrivals_snoc _ _).trans (append_nil _)

theorem refuse (s : Sem ν γ) (err : Error) (w : ν) : Calm s (s.refuse err w) := by
  refine ((unlink s w).trans (put _ w (fun e => { e with err := err }) id)).congr ?_ rfl
  exact (arrivals_snoc _ _).trans (append_nil _)

theorem wake (h : Ok s l) : Calm s s.wake :=
  (wake_induction (P := Calm s) (fun {r w _} _ _ hr => hr.trans (grant r w)) h (.refl s)).2

theorem add_wake (h : Ok s l) (n : ℕ) : Calm s (s.add n).wake := by
  have hadd : Calm s (s.add n) := (Calm.refl s).congr rfl rfl
  exact hadd.trans (wake (h.add n))

theorem release (h : Ok s l) (n : ℕ) : Calm s (s.release n) := by
  rw [Sem.release]
  split_ifs
  · exact .refl s
  · exact add_wake h n

theorem destroy (h : Ok s l) (w : ν) : Calm s (s.destroy w) := by
  have hgone (r : Sem ν γ) : Calm r (r.put w fun e => { e with stage := .gone }) := put r w _ nofun
  rcases destroy_cases h (w := w) with ⟨-, heq⟩ | ⟨hq, -, -, heq⟩ | ⟨-, -, heq⟩
  · rw [heq]
    have hleave : Calm s ((s.unlink w).record (.leave w)) :=
      (unlink s w).congr ((arrivals_snoc _ _).trans (append_nil _)) rfl
    exact hleave.trans (hgone _)
  · exact heq ▸ (hgone s).trans (add_wake (h.gone hq) _)
  · exact heq ▸ hgone s

end

omit [DecidableEq ν] in
theorem pay (h : Calm s t) (n : ℕ) (g : Option γ) : Calm s (t.pay n g) :=
  by cases g <;> exact h.congr rfl rfl

theorem resume (s : Sem ν γ) (w : ν) (g : Option γ) : Calm s (s.resume w g) := by
  have hput : Calm s (s.put w fun e => { e with consumed := true, stage := .gone }) :=
    put s w _ nofun
  rw [Sem.resume]
  split_ifs
  · exact hput.pay _ _
  · exact hput

theorem resetGuard (h : Ok s l) (g : γ) : Calm s (s.resetGuard g) := by
  rw [Sem.resetGuard]
  cases s.guards g with
  | none => exact .refl s
  | some n => exact (release h n).congr rfl rfl

end Calm

/-- An awaiter arrives once. -/
structure Came (s : Sem ν γ) : Prop where
  nodup : (arrivals s.log).Nodup
  born : ∀ w ∈ arrivals s.log, (s.waiters w).stage ≠ .unborn

omit [DecidableEq ν] [DecidableEq γ] in
theorem Came.calm (h : Came s) (hc : Calm s t) : Came t where
  nodup := hc.arrivals_eq ▸ h.nodup
  born w hw hu := h.born w (hc.arrivals_eq ▸ hw) (hc.born w hu)

omit [DecidableEq γ] in
theorem Came.suspend (h : Came s) (hw : (s.waiters w).stage = .unborn) (n : ℕ) : Came
    (s.suspend w n) := by
  have harrivals : arrivals (s.suspend w n).log = arrivals s.log ++ [w] := by
    rw [suspend_log, arrivals_snoc]
    rfl
  have hstage (u : ν) : ((s.suspend w n).waiters u).stage = if u = w then .suspended
    else (s.waiters u).stage := by
    change (((s.put w _).setNext s.tail (some w)).waiters u).stage = _
    rw [setNext_apply, put_apply]
    split_ifs <;> rfl
  refine ⟨?_, fun u hu => ?_⟩
  · rw [harrivals]
    refine h.nodup.append (nodup_singleton w) fun u hu hu' => ?_
    exact h.born u hu (mem_singleton.mp hu' ▸ hw)
  · rw [hstage]
    split_ifs with huw
    · nofun
    · rw [harrivals, mem_append, mem_singleton] at hu
      exact h.born u (hu.resolve_right huw)

theorem Came.acquire (h : Came s) (hw : (s.waiters w).stage = .unborn) (n : ℕ) (g : Option γ) :
    Came (s.acquire w n g) := by
  rw [Sem.acquire]
  split_ifs
  · exact h.calm (.put s w _ (by rintro ⟨⟩))
  · refine h.calm (.pay ?_ n g)
    refine (Calm.put s w (fun _ => { need := n, granted := true, consumed := true, stage := .gone })
      (by rintro ⟨⟩)).congr ?_ rfl
    exact (arrivals_snoc _ _).trans (append_nil _)
  · exact h.suspend hw n

theorem Came.move {a : Act ν γ} (h : Came s) (hok : Ok s l) (hmove : Move s a t) : Came t := by
  cases hmove with
  | acquire w n g hw => exact h.acquire hw n g
  | resume w g => exact h.calm (.resume s w g)
  | destroy w => exact h.calm (.destroy hok w)
  | tryAcquire n =>
    rw [Sem.tryAcquire]
    split_ifs
    · exact h
    · exact h.calm ((Calm.refl s).congr rfl rfl)
  | release n => exact h.calm ((Calm.release hok n).congr rfl rfl)
  | resetGuard g => exact h.calm (.resetGuard hok g)
  | moveGuard g g' => exact h.calm ((Calm.refl s).congr rfl rfl)
  | assignGuard g g' =>
    rw [Sem.assignGuard]
    split_ifs
    · exact h
    · exact h.calm ((Calm.resetGuard hok g).congr rfl rfl)
  | abort err =>
    rw [Sem.abort]
    split_ifs
    · exact h
    · exact h.calm (refuseAll_induction (P := Calm s) err (fun t w ht => ht.trans (.refuse t err w))
        _
        ((Calm.refl s).congr rfl rfl))

omit [DecidableEq γ] in
/-- The queue is the arrivals that are still queued. -/
theorem Ok.eq_filter (h : Ok s l) (hc : Came s) : l = (arrivals s.log).filter fun w =>
    (s.waiters w).queued := by
  have hsub : l.Sublist (arrivals s.log) := h.line_eq ▸ line_sublist_arrivals s.log
  have hall : l.filter (fun w => (s.waiters w).queued) = l :=
    filter_eq_self.mpr fun w hw => (h.mem_iff w).mp hw
  have hfilter := hsub.filter fun w => (s.waiters w).queued
  rw [hall] at hfilter
  refine hfilter.eq_of_length_le ?_
  refine (subperm_of_subset (hc.nodup.filter _) fun w hw => ?_).length_le
  exact (h.mem_iff w).mpr (mem_filter.mp hw).2

/-- Guards that are moved, waiters that are destroyed with their permits and without, and an
abort. -/
def ledgerWord : List (Act ℕ ℕ) :=
  [.acquire 0 2 (some 0), .acquire 1 2 none, .acquire 2 1 (some 1), .acquire 3 5 none,
    .moveGuard 0 2, .resetGuard 2,
    .destroy 1, .resume 2 (some 1), .acquire 4 4 none, .release 1, .abort ⟨eCanceled, .system⟩,
      .resume 3 none, .destroy 4,
    .assignGuard 1 2, .tryAcquire 1]

end Cornet.Semaphore
