import Cornet.Http.Client.PoolAccounting

/-!
# Http/Client/PoolGrants — waiters destroyed after they were chosen

    parked ──chosen──▸ scheduled ──▸ resumed            destroyed here: ~wait_awaiter, a no-op by now
                           │
                           └─▸ the grant stays in `busy`, the slot is gone

A waiter leaves the queue when it is chosen, so its destructor finds nothing to undo: a connection
granted to it stays in `busy` with nobody to hand it back, a slot given to it wakes nobody else.
`borrowed_of_spares` says exactly which destructions hand everything on, and that up to the first
one that does not, every busy connection has a borrower.
-/

namespace Cornet.Http.Client.Pool

open List Function

variable {κ : Type*}

section

variable {s s' : Pool κ} {t : ℕ}

/-- Every connection in use is lent to a call, or granted to one. -/
def Borrowed (s : Pool κ) : Prop := ∀ k, ∀ c ∈ (s.buckets k).busy, ∃ t, (s.task t).owns = some c

/-- What a destroyed call `t` had been given went on: its connection out of `busy` or to another
call, its slot to the next waiter. -/
def HandedOn (s : Pool κ) (t : ℕ) (s' : Pool κ) : Prop :=
  (∀ c, (s.task t).owns = some c →
    c ∉ (s'.buckets c.key).busy ∨ ∃ u, (s'.task u).owns = some c) ∧
  ∀ k, (s.task t).slot = some k → ∀ u us, (s.buckets k).waiters = u :: us →
    (s'.task u).woken = some k

/-- A call is destroyed only if it was granted nothing, and given no slot that another waits for. -/
def Spares (s : Pool κ) : Event κ → Prop
  | .destroy t => (s.task t).owns = none ∧ ∀ k ∈ (s.task t).slot, (s.buckets k).waiters = []
  | _ => True

instance (s : Pool κ) : DecidablePred s.Spares
  | .destroy _ => inferInstanceAs (Decidable (_ ∧ ∀ k ∈ _, _))
  | .acquire .. | .resolved .. | .connected .. | .release .. | .idleExpired .. | .waitExpired ..
  | .resume .. | .tick => .isTrue trivial

/-- Whatever is in `busy` after a move has an owner after it, or kept the one it had. -/
theorem Borrowed.of (h : Borrowed s) (hmove : ∀ j, ∀ c ∈ (s'.buckets j).busy,
      (∃ u, (s'.task u).owns = some c) ∨
        c ∈ (s.buckets j).busy ∧ ∀ u, (s.task u).owns = some c → (s'.task u).owns = some c) :
    Borrowed s' := by
  intro j c hc
  rcases hmove j c hc with hown | ⟨hmem, hkeep⟩
  · exact hown
  · obtain ⟨u, hu⟩ := h j c hmem
    exact ⟨u, hkeep u hu⟩

/-- A call that owns nothing can change state. -/
theorem owns_update {f : ℕ → Acquire κ} {x : Acquire κ} {c : Conn κ} (h : (f t).owns = none) (u : ℕ)
    (hu : (f u).owns = some c) : (Function.update f t x u).owns = some c := by
  rcases eq_or_ne u t with rfl | hut
  · rw [h] at hu
    cases hu
  · rwa [update_of_ne hut]

end

variable [DecidableEq κ] {opt : Options} {s s' : Pool κ} {a : Event κ} {as : List (Event κ)} {t : ℕ}
  {k : κ}

/-- Such a call takes over the connections that are new in `busy`. -/
theorem Borrowed.write {x : Acquire κ} {b : Bucket κ} (h : Borrowed s)
    (hb : s'.buckets = s.buckets.set k b) (htask : s'.task = Function.update s.task t x)
    (hown : (s.task t).owns = none)
    (hbusy : ∀ c ∈ b.busy, c ∈ (s.buckets k).busy ∨ x.owns = some c) : Borrowed s' := by
  refine h.of fun j c hc => ?_
  have hkeep : ∀ u, (s.task u).owns = some c → (s'.task u).owns = some c := by
    rw [htask]
    exact fun u => owns_update hown u
  rw [hb] at hc
  rcases eq_or_ne j k with rfl | hj
  · rw [Family.set_self] at hc
    rcases hbusy c hc with hmem | hx
    · exact .inr ⟨hmem, hkeep⟩
    · exact .inl ⟨t, by rw [htask, update_self, hx]⟩
  · rw [Family.set_of_ne _ _ hj] at hc
    exact .inr ⟨hc, hkeep⟩

/-- The borrower of `c` hands it back: all others keep theirs. -/
theorem Borrowed.release {r : Bool} {c : Conn κ} {b : Bucket κ} (h : Borrowed s) (hl : Ledger opt s)
    (ht : s.task t = .holding c r) (hb : s'.buckets = s.buckets.set c.key b)
    (htask : ∀ u, u ≠ t → ∀ d, (s.task u).owns = some d → (s'.task u).owns = some d)
    (hbusy : ∀ d ∈ b.busy, d ∈ (s.buckets c.key).busy.erase c ∨ ∃ u, (s'.task u).owns = some d) :
    Borrowed s' := by
  -- what is still in `busy` is not `c`, so its owner is not `t`
  have hkeep : ∀ d, d ≠ c → ∀ u, (s.task u).owns = some d → (s'.task u).owns = some d := by
    intro d hdc u hu
    refine htask u ?_ d hu
    rintro rfl
    rw [ht] at hu
    exact hdc (Option.some.inj hu).symm
  refine h.of fun j d hd => ?_
  rw [hb] at hd
  rcases eq_or_ne j c.key with rfl | hj
  · rw [Family.set_self] at hd
    rcases hbusy d hd with hmem | hown
    · refine .inr ⟨mem_of_mem_erase hmem, hkeep d ?_⟩
      rintro rfl
      exact hl.not_mem_erase hmem
    · exact .inl hown
  · rw [Family.set_of_ne _ _ hj] at hd
    refine .inr ⟨hd, hkeep d ?_⟩
    rintro rfl
    exact hj (hl.home j d (Nat.add_pos_right _ (count_pos_iff.mpr hd))).symm

/-- **No connection loses its borrower** to a step that spares the chosen. -/
theorem Borrowed.move (h : Borrowed s) (hl : Ledger opt s) (hr : Roster s) (hm : Move opt s a s')
    (hok : Spares s a) : Borrowed s' := by
  cases hm with
  | @reuse a t k T c stale rest he hidle =>
    refine h.write rfl rfl he.nowhere.2.2 fun d hd => ?_
    exact (mem_append.mp hd).imp_right fun hd => congrArg some (mem_singleton.mp hd).symm
  | opening he | park he => exact h.write rfl rfl he.nowhere.2.2 fun d hd => .inl hd
  | resolve ht =>
    exact h.of fun j d hd => .inr ⟨hd, fun u => owns_update (by rw [ht]; rfl) u⟩
  | drop ha ht hx => exact h.write rfl rfl (Acquire.owns_of_opens ht) fun d hd => .inl hd
  | adopt ht hc =>
    refine h.write rfl rfl (by rw [ht]; rfl) fun d hd => ?_
    exact (mem_append.mp hd).imp_right fun hd => congrArg some (mem_singleton.mp hd).symm
  | stray ht hc => exact absurd (hr.owner _ _ (congrArg Acquire.owns ht)) hc
  | close ht hc hw | shelve ht hc hw hroom =>
    refine h.release hl ht rfl (fun u hu d hd => ?_) fun d hd => .inl hd
    dsimp only
    rwa [update_of_ne hu]
  | pass ht hc hw =>
    have hwait := hr.waiting_of_mem (hw ▸ mem_cons_self)
    refine h.release hl ht rfl (fun u hu d hd => ?_) fun d hd => .inl hd
    dsimp only
    rw [update_of_ne hu]
    exact owns_update (by rw [hwait]; rfl) u hd
  | @grant t c r _ _ w ws ht hc hw =>
    have hwait := hr.waiting_of_mem (hw ▸ mem_cons_self)
    have hwt := hr.ne_of_holding (hw ▸ mem_cons_self) ht
    refine h.release hl ht rfl (fun u hu d hd => ?_) fun d hd => ?_
    · dsimp only
      rw [update_of_ne hu]
      exact owns_update (by rw [hwait]; rfl) u hd
    · refine (mem_append.mp hd).imp_right fun hd => ⟨w, ?_⟩
      dsimp only
      rw [update_of_ne hwt, update_self, hwait, mem_singleton.mp hd]
      rfl
  | @evict c hc =>
    refine h.of fun j d hd => .inr ⟨?_, fun u hu => hu⟩
    rcases eq_or_ne j c.key with rfl | hj
    · rwa [Family.set_self] at hd
    · rwa [Family.set_of_ne _ _ hj] at hd
  | @expire t d k v ht hd =>
    refine h.write rfl rfl ?_ fun d hd => .inl hd
    obtain ⟨i, hi⟩ := Option.ne_none_iff_exists'.mp (hr.timer _ hd)
    rw [hr.waiting_of_mem ((hr.queue t i).mpr hi)]
    rfl
  | @fail t k v _ ht hv he =>
    have hsound := hr.waiter t
    rw [ht] at hsound
    have hown : (s.task t).owns = none := by
      rw [ht]
      rcases hsound with rfl | ⟨-, hg | hx⟩
      · rfl
      · exact hg
      · rw [he] at hx
        cases hx
    exact h.of fun j d hd => .inr ⟨hd, fun u => owns_update hown u⟩
  | @receive t k v c _ ht hv he hg =>
    refine h.of fun j d hd => .inr ⟨hd, fun u hu => ?_⟩
    dsimp only
    rcases eq_or_ne u t with rfl | hut
    · rw [ht] at hu
      rw [update_self]
      exact hg.symm.trans hu
    · rwa [update_of_ne hut]
  | leave ht => exact h.write rfl rfl hok.1 fun d hd => .inl hd
  | tick => exact h

/-- The destructor of a waiter undoes nothing that was done for it. -/
theorem leave_handedOn_iff {v : Waiter κ} (hr : Roster s) (ht : s.task t = .waiting k v)
    (hb : s'.buckets = s.buckets.set k
      { s.buckets k with waiters := (s.buckets k).waiters.filter (· ≠ t) })
    (htask : s'.task = Function.update s.task t .destroyed) :
    HandedOn s t s' ↔ (s.task t).owns = none ∧ ∀ k ∈ (s.task t).slot,
      (s.buckets k).waiters = [] := by
  constructor
  · rintro ⟨hgrant, hslot⟩
    constructor
    · refine Option.eq_none_iff_forall_not_mem.mpr fun c hc => ?_
      have hbusy : c ∈ (s'.buckets c.key).busy := by
        rw [hb, Family.set_apply]
        split
        · rename_i hk
          exact hk ▸ hr.owner t c hc
        · exact hr.owner t c hc
      rcases hgrant c hc with hnot | ⟨u, hu⟩
      · exact hnot hbusy
      · -- the owner after the step owned it before, next to `t`
        rw [htask, update_apply] at hu
        split at hu
        · cases hu
        · rename_i hut
          exact hut (hr.alone u t c hu hc)
    · intro j hj
      rcases hw : (s.buckets j).waiters with _ | ⟨u, us⟩
      · rfl
      · have hwait := hr.waiting_of_mem (hw ▸ mem_cons_self)
        have hut : u ≠ t := by
          rintro rfl
          rw [hwait] at hj
          cases hj
        have hwoken := hslot j hj u us hw
        rw [htask, update_of_ne hut, hwait] at hwoken
        cases hwoken
  · rintro ⟨hown, hslot⟩
    constructor
    · intro c hc
      rw [hown] at hc
      cases hc
    · intro j hj u us hw
      rw [hslot j hj] at hw
      cases hw

/-- What a destruction hands on. -/
theorem handedOn_iff (hr : Roster s) (hstep : step opt s (.destroy t) = some s') :
    HandedOn s t s' ↔ Spares s (.destroy t) := by
  cases step_move hstep with
  | reuse he | opening he | park he => cases he
  | drop ha ht hx =>
    obtain rfl : t = _ := by simpa using ha
    have hown := Acquire.owns_of_opens ht
    have hslot := Acquire.slot_of_opens ht
    refine iff_of_true ⟨fun c hc => ?_, fun j hj => ?_⟩ ⟨hown, fun j hj => ?_⟩
    · rw [hown] at hc
      cases hc
    · rw [hslot] at hj
      cases hj
    · rw [hslot] at hj
      cases hj
  | leave ht => exact leave_handedOn_iff hr ht rfl rfl

/-- **Grants are kept** in a run that spares the chosen: every busy connection has a borrower, and
the next destruction hands everything on if and only if it spares the chosen too. -/
theorem borrowed_of_spares (h : Run (step opt) Spares {} as s) :
    s.Borrowed ∧ ∀ t s', step opt s (.destroy t) = some s' →
      (HandedOn s t s' ↔ Spares s (.destroy t)) := by
  obtain ⟨-, hr, hb⟩ := h.invariant (I := fun s => Ledger opt s ∧ Roster s ∧ Borrowed s)
    ⟨Ledger.init, Roster.init, fun _ _ hc => absurd hc not_mem_nil⟩
    fun ⟨hl, hr, hb⟩ hok hstep =>
      have hm := step_move hstep
      ⟨hl.move (fun _ _ => hr.opening_pos) hm, hr.move hl hm, hb.move hl hr hm hok⟩
  exact ⟨hb, fun t s' => handedOn_iff hr⟩

/-- A second call parks behind the first, a third behind it is destroyed while parked, then the
second is granted the connection and resumes. -/
def destroyedInQueue : List (Event Bool) :=
  [.acquire 0 true fun _ => true, .resolved 0 true, .connected 0 true, .acquire 1 true fun _ =>
    true,
   .acquire 2 true fun _ => true, .destroy 2, .release 0 true true, .resume 1 fun _ => true]

theorem borrowed_of_spares_destroyedInQueue : ∃ s, Run (step onePool) Spares {} destroyedInQueue s ∧
    s.task 1 = .holding ⟨true, 0⟩ true ∧ s.Borrowed ∧ ∀ t s', step onePool s (.destroy t) = some
      s' →
      (HandedOn s t s' ↔ Spares s (.destroy t)) := by
  obtain ⟨s, hs, htask⟩ : ∃ s, Run (step onePool) Spares {} destroyedInQueue s ∧
      s.task 1 = .holding ⟨true, 0⟩ true := Run.exists_of_mem (by decide +kernel)
  exact ⟨s, hs, htask, borrowed_of_spares hs⟩

/-- The second call is destroyed after the connection was granted to it and before it resumes. -/
def destroyedChosen : List (Event Bool) :=
  [.acquire 0 true fun _ => true, .resolved 0 true, .connected 0 true, .acquire 1 true fun _ =>
    true,
   .release 0 true true, .destroy 1]

/-- **A connection is lost**: it is in `busy`, counted, and no call holds it. -/
theorem destroyedChosen_not_borrowed : ∃ s, Run (step onePool) (fun _ _ => True) {} destroyedChosen
    s ∧
    s.total = 1 ∧ ¬ s.Borrowed := by
  have hstate : (exec (step onePool) (fun _ _ => True) {} destroyedChosen).map (fun s =>
      ((s.buckets true).busy, s.total)) = some ([⟨true, 0⟩], 1) := by decide +kernel
  have htask : (exec (step onePool) (fun _ _ => True) {} destroyedChosen).map Pool.task =
      some (Function.update (Function.update (Function.update (Function.update (Function.update
        (Function.update (Function.update (fun _ => .fresh) 0 (.resolving true)) 0
          (.connecting true)) 0
        (.holding ⟨true, 0⟩ false)) 1 (.waiting true {})) 1
          (.waiting true ⟨some ⟨true, 0⟩, false, 1⟩)) 0
        .released) 1 .destroyed) := rfl
  obtain ⟨s, hs, hstate⟩ := Option.map_eq_some_iff.mp hstate
  rw [hs, Option.map_some, Option.some.injEq] at htask
  simp only [Prod.mk.injEq] at hstate
  refine ⟨s, Run.of_exec hs, hstate.2, fun hb => ?_⟩
  obtain ⟨t, ht⟩ := hb true ⟨true, 0⟩ (by rw [hstate.1]; exact mem_cons_self)
  rw [htask] at ht
  simp only [update_apply] at ht
  split_ifs at ht <;> cases ht

end Cornet.Http.Client.Pool
