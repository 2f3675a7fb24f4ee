import Cornet.Http.Client.PoolAccounting

/-!
# Http/Client/PoolWakeups — who is woken when room appears

    close in k      ─▸ a slot to the front waiter of k, and to nobody in another bucket
    opening fails   ─▸ the guard lowers `opening`, nobody is woken
    slot destroyed  ─▸ it is given to nobody else

A waiter that nobody will wake should have nothing to take (`Awake`).  Three kinds of steps break
this: an opening that fails or is destroyed while its bucket has a waiter, a connection that is
closed while what holds a waiter back is the cap on all connections, and a waiter destroyed after it
was given a slot.  Where none of them happens the property holds in every state
(`awake_of_wakeful`).  The invariant counts a slot that was handed out and not yet taken as if it
were taken (`Covered`).
-/

namespace Cornet.Http.Client

open List Function Family

/-- The call whose opening fails, or whose frame is destroyed. -/
def Event.aborts {κ : Type*} : Event κ → Option ℕ
  | .resolved t ok => if ok then none else some t
  | .connected t ok => if ok then none else some t
  | .destroy t => some t
  | _ => none

namespace Pool

variable {κ : Type*}

section

variable {s s' : Pool κ} {a : Event κ} {t u : ℕ} {j k : κ} {x : Acquire κ} {v : Waiter κ}
  {T : List (ℕ × ℕ)}

/-- A waiter is parked in a bucket, nobody of that bucket is about to run: then there is nothing to
take. -/
def Awake (opt : Options) (s : Pool κ) : Prop :=
  ∀ k, (s.buckets k).waiters ≠ [] → (∀ t, (s.task t).woken ≠ some k) →
    (s.buckets k).idle = [] ∧
      ((s.buckets k).busy.length + (s.buckets k).opening = opt.maxConnsPerHost ∨
        opt.maxTotalConns ≤ s.total)

/-- The bucket is full, counting the slots that woken waiters have yet to take. -/
def Covered (opt : Options) (s : Pool κ) (k : κ) : Prop :=
  ∃ F : Finset ℕ, (∀ t ∈ F, (s.task t).slot = some k) ∧
    opt.maxConnsPerHost ≤ (s.buckets k).busy.length + (s.buckets k).opening + F.card

theorem Covered.mono {opt : Options} (h : Covered opt s k)
    (hsum : (s.buckets k).busy.length + (s.buckets k).opening ≤
      (s'.buckets k).busy.length + (s'.buckets k).opening)
    (hslot : ∀ t, (s.task t).slot = some k → (s'.task t).slot = some k) : Covered opt s' k := by
  obtain ⟨F, hF, hcard⟩ := h
  exact ⟨F, fun t ht => hslot t (hF t ht), by omega⟩

/-- A slot is taken: one more opening for one woken waiter. -/
theorem Covered.take {opt : Options} (h : Covered opt s k)
    (htask : ∀ u, u ≠ t → s'.task u = s.task u)
    (hsum : (s'.buckets k).busy.length + (s'.buckets k).opening =
      (s.buckets k).busy.length + (s.buckets k).opening + 1) : Covered opt s' k := by
  obtain ⟨F, hF, hcard⟩ := h
  refine ⟨F.erase t, fun u hu => ?_, ?_⟩
  · obtain ⟨hut, hu⟩ := Finset.mem_erase.mp hu
    rw [htask u hut]
    exact hF u hu
  · have := Finset.pred_card_le_card_erase (s := F) (a := t)
    omega

/-- A slot is given: one connection less, one woken waiter more. -/
theorem Covered.give {opt : Options} (h : Covered opt s k) (ht : (s.task t).slot ≠ some k)
    (ht' : (s'.task t).slot = some k)
    (htask : ∀ u, u ≠ t → (s.task u).slot = some k → (s'.task u).slot = some k)
    (hsum : (s'.buckets k).busy.length + (s'.buckets k).opening + 1 =
      (s.buckets k).busy.length + (s.buckets k).opening) : Covered opt s' k := by
  obtain ⟨F, hF, hcard⟩ := h
  have htF : t ∉ F := fun hmem => ht (hF t hmem)
  refine ⟨insert t F, fun u hu => ?_, ?_⟩
  · rcases eq_or_ne u t with rfl | hut
    · exact ht'
    · exact htask u hut (hF u (Finset.mem_of_mem_insert_of_ne hu hut))
  · rw [Finset.card_insert_of_notMem htF]
    omega

theorem slot_of_waiting (ht : s.task t = .waiting k v) (hj : j ≠ k) : (s.task t).slot ≠ some j := by
  rw [ht, Acquire.slot]
  split
  · rintro ⟨⟩
  · exact fun h => hj (Option.some.inj h).symm

theorem Enters.slot_ne (he : Enters s a t k T) (hj : j ≠ k) : (s.task t).slot ≠ some j := by
  cases he with
  | start ht => simp [ht, Acquire.slot]
  | again ht => exact slot_of_waiting ht hj

/-- A call that holds no slot of `k` can change state. -/
theorem slot_update {f : ℕ → Acquire κ} (h : (f t).slot ≠ some k) (u : ℕ)
    (hu : (f u).slot = some k) :
    (Function.update f t x u).slot = some k := by
  rcases eq_or_ne u t with rfl | hut
  · exact absurd hu h
  · rwa [update_of_ne hut]

/-- The slots of a release that serves a waiter: the borrower held none, the waiter none yet. -/
theorem slots_handOver {w : ℕ} {c : Conn κ} {r : Bool} {y : Acquire κ}
    (hw : s.task w = .waiting k v)
    (hv : v.wakes = 0) (ht : s.task t = .holding c r) (j : κ) (u : ℕ)
      (hu : (s.task u).slot = some j) :
    (Function.update (Function.update s.task w x) t y u).slot = some j := by
  have huw : u ≠ w := by
    rintro rfl
    rw [hw, Acquire.slot, if_pos (.inl hv)] at hu
    cases hu
  have hut : u ≠ t := by
    rintro rfl
    rw [ht] at hu
    cases hu
  rwa [update_of_ne hut, update_of_ne huw]

/-- Every parked waiter is held back by a cap. -/
def Held (opt : Options) (s : Pool κ) : Prop :=
  ∀ k, (s.buckets k).waiters ≠ [] →
    (s.buckets k).idle = [] ∧ (Covered opt s k ∨ opt.maxTotalConns ≤ s.total)

/-- A move elsewhere: only a lower total can hurt. -/
theorem Held.other {opt : Options} (h : Held opt s)
    (hfull : s'.total < s.total → ∀ k, (s.buckets k).waiters ≠ [] → Covered opt s k)
    (hb : s'.buckets j = s.buckets j) (hslot : ∀ t, (s.task t).slot = some j →
      (s'.task t).slot = some j)
    (hw : (s'.buckets j).waiters ≠ []) :
    (s'.buckets j).idle = [] ∧ (Covered opt s' j ∨ opt.maxTotalConns ≤ s'.total) := by
  rw [hb] at hw ⊢
  obtain ⟨hidle, hheld⟩ := h j hw
  refine ⟨hidle, ?_⟩
  have hkeep : Covered opt s j → Covered opt s' j := fun hc => hc.mono (by rw [hb]) hslot
  rcases lt_or_ge s'.total s.total with hlt | hge
  · exact .inl (hkeep (hfull hlt j hw))
  · exact hheld.imp hkeep fun htotal => htotal.trans hge

end

variable [DecidableEq κ] {opt : Options} {s s' : Pool κ} {a : Event κ} {as : List (Event κ)} {t : ℕ}
  {j k : κ}

/-- A waiter that holds no slot leaves its queue. -/
theorem Held.leaveQueue {x : Acquire κ} (h : Held opt s)
    (hfull : s'.total < s.total → ∀ k, (s.buckets k).waiters ≠ [] → Covered opt s k)
    (hslot : ∀ i, (s.task t).slot ≠ some i)
    (hb : s'.buckets = s.buckets.set k
      { s.buckets k with waiters := (s.buckets k).waiters.filter (· ≠ t) })
    (htask : s'.task = Function.update s.task t x) (hj : (s'.buckets j).waiters ≠ []) :
    (s'.buckets j).idle = [] ∧ (Covered opt s' j ∨ opt.maxTotalConns ≤ s'.total) := by
  have hslots : ∀ i u, (s.task u).slot = some i → (s'.task u).slot = some i := by
    rw [htask]
    exact fun i => slot_update (hslot i)
  rcases eq_or_ne j k with rfl | hne
  · rw [hb, set_self] at hj ⊢
    have hw : (s.buckets j).waiters ≠ [] := fun hnil => hj (by rw [hnil]; rfl)
    obtain ⟨hidle, hheld⟩ := h j hw
    have hkeep : Covered opt s j → Covered opt s' j :=
      fun hc => hc.mono (by rw [hb, set_self]) (hslots j)
    refine ⟨hidle, ?_⟩
    rcases lt_or_ge s'.total s.total with hlt | hge
    · exact .inl (hkeep (hfull hlt j hw))
    · exact hheld.imp hkeep fun htotal => htotal.trans hge
  · exact h.other hfull (by rw [hb, set_of_ne _ _ hne]) (hslots j) hj

/-- What a step must not do while waiters are parked. -/
structure Wakeful (opt : Options) (s : Pool κ) (a : Event κ) : Prop where
  /-- connections are closed only while every bucket with a waiter is full without them -/
  full : (s.after opt a).total < s.total → ∀ k, (s.buckets k).waiters ≠ [] → Covered opt s k
  /-- nobody gives up an opening or a slot of a bucket with a waiter -/
  kept : ∀ t, a.aborts = some t → ∀ k, (s.task t).opens = some k ∨ (s.task t).slot = some k →
    (s.buckets k).waiters = []

/-- **Waiters stay held back** by a wakeful step. -/
theorem Held.move (h : Held opt s) (hl : Ledger opt s) (hr : Roster s) (hm : Move opt s a s')
    (hfull : s'.total < s.total → ∀ k, (s.buckets k).waiters ≠ [] → Covered opt s k)
    (hkept : ∀ t, a.aborts = some t → ∀ k, (s.task t).opens = some k ∨ (s.task t).slot = some k →
      (s.buckets k).waiters = []) : Held opt s' := by
  intro j hj
  cases hm with
  | @reuse a t k T c stale rest he hidle =>
    rcases eq_or_ne j k with rfl | hne
    · -- a bucket with an idle connection has no waiter
      rw [set_self] at hj
      rw [(h j hj).1] at hidle
      exact absurd hidle.symm (append_ne_nil_of_right_ne_nil _ (cons_ne_nil _ _))
    · exact h.other hfull (set_of_ne _ _ hne) (slot_update (he.slot_ne hne)) hj
  | @opening a t k T he hhost htotal =>
    rcases eq_or_ne j k with rfl | hne
    · rw [set_self] at hj ⊢
      obtain ⟨hidle, hheld⟩ := h j hj
      refine ⟨rfl, hheld.imp ?_ ?_⟩
      · refine fun hcov => hcov.take (t := t) (fun u hu => update_of_ne hu ..) ?_
        rw [set_self]
        exact (Nat.add_assoc ..).symm
      · intro htot
        rw [hidle]
        exact htot
    · exact h.other hfull (set_of_ne _ _ hne) (slot_update (he.slot_ne hne)) hj
  | @park a t k T he hfull' =>
    rcases eq_or_ne j k with rfl | hne
    · rw [set_self]
      refine ⟨rfl, hfull'.imp (fun hhost => ⟨∅, by simp, ?_⟩) id⟩
      rw [set_self]
      exact hhost
    · exact h.other hfull (set_of_ne _ _ hne) (slot_update (he.slot_ne hne)) hj
  | @resolve t k ht | @stray t c r _ _ ht hc =>
    exact h.other hfull rfl (slot_update (by rw [ht]; exact nofun)) hj
  | @drop a t k x ha ht hx =>
    rcases eq_or_ne j k with rfl | hne
    · rw [set_self] at hj
      have haborts : a.aborts = some t := by
        rcases ha with rfl | rfl | rfl <;> rfl
      exact absurd (hkept t haborts j (.inl ht)) hj
    · exact h.other hfull (set_of_ne _ _ hne)
        (slot_update (by rw [Acquire.slot_of_opens ht]; exact nofun)) hj
  | @adopt t k c ht hc =>
    have hslot : (s.task t).slot = none := Acquire.slot_of_opens (congrArg Acquire.opens ht)
    rcases eq_or_ne j k with rfl | hne
    · have hpos := hr.opening_pos (congrArg Acquire.opens ht)
      rw [set_self] at hj ⊢
      obtain ⟨hidle, hheld⟩ := h j hj
      refine ⟨hidle, hheld.imp (fun hcov => hcov.mono ?_ (slot_update (by rw [hslot]; exact nofun)))
        ?_⟩
      · exact fun htot => htot.trans (Nat.le_succ _)
      · rw [set_self]
        simp only [length_append, length_singleton]
        omega
    · exact h.other hfull (set_of_ne _ _ hne) (slot_update (by rw [hslot]; exact nofun)) hj
  | @close t c r _ _ ht hc hw | @shelve t c r _ _ ht hc hw hroom =>
    rcases eq_or_ne j c.key with rfl | hne
    · rw [set_self] at hj
      exact absurd hw hj
    · exact h.other hfull (set_of_ne _ _ hne) (slot_update (by rw [ht]; exact nofun)) hj
  | @pass t c r _ _ w ws ht hc hw =>
    have hwait := hr.waiting_of_mem (hw ▸ mem_cons_self)
    have hwt := hr.ne_of_holding (hw ▸ mem_cons_self) ht
    have hslots := slots_handOver (x := (s.task w).wake none) (y := .released) hwait rfl ht
    rcases eq_or_ne j c.key with rfl | hne
    · have hbusy := length_pos_of_mem hc
      have hcov := hfull (Nat.sub_lt (hl.total_pos hc) Nat.one_pos) c.key (hw ▸ cons_ne_nil _ _)
      have hlen := length_erase_of_mem hc
      refine ⟨?_, .inl (hcov.give (t := w) ?_ ?_ (fun u _ => hslots _ u) ?_)⟩
      · rw [set_self]
        exact (h c.key (hw ▸ cons_ne_nil _ _)).1
      · rw [hwait]
        exact nofun
      · dsimp only
        rw [update_of_ne hwt, update_self, hwait]
        rfl
      · rw [set_self]
        dsimp only
        omega
    · exact h.other hfull (set_of_ne _ _ hne) (hslots j) hj
  | @grant t c r _ _ w ws ht hc hw =>
    have hwait := hr.waiting_of_mem (hw ▸ mem_cons_self)
    have hslots := slots_handOver (x := (s.task w).wake (some c)) (y := .released) hwait rfl ht
    rcases eq_or_ne j c.key with rfl | hne
    · have hbusy := length_pos_of_mem hc
      have hlen := length_erase_of_mem hc
      obtain ⟨hidle, hheld⟩ := h c.key (hw ▸ cons_ne_nil _ _)
      refine ⟨by rw [set_self]; exact hidle, hheld.imp_left fun hcov => hcov.mono ?_ (hslots _)⟩
      rw [set_self]
      simp only [length_append, length_singleton]
      omega
    · exact h.other hfull (set_of_ne _ _ hne) (hslots j) hj
  | @evict c hc =>
    rcases eq_or_ne j c.key with rfl | hne
    · rw [set_self] at hj
      rw [(h _ hj).1] at hc
      exact absurd hc not_mem_nil
    · exact h.other hfull (set_of_ne _ _ hne) (fun _ hu => hu) hj
  | @expire t d k v ht hd =>
    have hslot : ∀ i, (s.task t).slot ≠ some i := by
      obtain ⟨i, hi⟩ := Option.ne_none_iff_exists'.mp (hr.timer _ hd)
      rw [Acquire.slot_of_parked hi]
      exact nofun
    exact h.leaveQueue hfull hslot rfl rfl hj
  | @fail t k v _ ht hv he =>
    refine h.other hfull rfl (slot_update ?_) hj
    rw [ht, Acquire.slot, if_pos (.inr (.inr he))]
    exact nofun
  | @receive t k v c _ ht hv he hg =>
    refine h.other hfull rfl (slot_update ?_) hj
    rw [ht, Acquire.slot, if_pos (.inr (.inl (by rw [hg]; rfl)))]
    exact nofun
  | @leave t k v ht =>
    by_cases hslot : (s.task t).slot = some k
    · -- its slot goes nowhere, so nobody may be waiting
      rcases eq_or_ne j k with rfl | hne
      · rw [set_self] at hj
        exact absurd (by rw [hkept t rfl j (.inr hslot)]; rfl) hj
      · exact h.other hfull (set_of_ne _ _ hne) (slot_update (slot_of_waiting ht hne)) hj
    · refine h.leaveQueue hfull (fun i hi => ?_) rfl rfl hj
      rcases eq_or_ne i k with rfl | hne
      · exact hslot hi
      · exact slot_of_waiting ht hne hi
  | tick hd => exact h.other hfull rfl (fun _ hu => hu) hj

/-- What is held back by caps has nothing to take, once no wakeup is pending. -/
theorem Held.awake (h : Held opt s) (hl : Ledger opt s) : Awake opt s := by
  intro k hw hquiet
  obtain ⟨hidle, hheld⟩ := h k hw
  refine ⟨hidle, hheld.imp_left ?_⟩
  rintro ⟨F, hF, hcard⟩
  have hempty : F = ∅ := Finset.eq_empty_of_forall_notMem fun t ht =>
    hquiet t (Acquire.woken_of_slot (hF t ht))
  have hhost := hl.host k
  rw [hempty, Finset.card_empty] at hcard
  rw [Bucket.size] at hhost
  omega

/-- The books, the roster and the waiters along a wakeful run. -/
theorem held_of_wakeful (h : Run (step opt) (Wakeful opt) {} as s) : Ledger opt s ∧ Roster s ∧
    Held opt s :=
  h.invariant (I := fun s => Ledger opt s ∧ Roster s ∧ Held opt s)
    ⟨Ledger.init, Roster.init, fun _ hw => absurd rfl hw⟩ fun {s a t} ⟨hl, hr, hh⟩ hok hstep => by
      have hm := step_move hstep
      have hafter : s.after opt a = t := by rw [after, hstep, Option.getD_some]
      exact ⟨hl.move (fun _ _ => hr.opening_pos) hm, hr.move hl hm,
        hh.move hl hr hm (hafter ▸ hok.full) hok.kept⟩

/-- **No wakeup is lost in a wakeful run.** -/
theorem awake_of_wakeful (h : Run (step opt) (Wakeful opt) {} as s) : s.Awake opt := by
  obtain ⟨hl, -, hh⟩ := held_of_wakeful h
  exact hh.awake hl

/-- A step that closes nothing and gives nothing up is wakeful. -/
theorem wakeful_of_quiet (h : ¬ (s.after opt a).total < s.total ∧ a.aborts = none) : Wakeful opt s
    a :=
  ⟨fun hlt => absurd hlt h.1, fun t ht => by rw [h.2] at ht; cases ht⟩

/-- One call holds the only connection, a second parks. -/
def parkedBehind : List (Event Bool) :=
  [.acquire 0 true fun _ => true, .resolved 0 true, .connected 0 true, .acquire 1 true fun _ =>
    true]

theorem awake_of_wakeful_parkedBehind : ∃ s, Run (step onePool) (Wakeful onePool)
    {} parkedBehind s ∧
    (s.buckets true).waiters = [1] ∧ s.Awake onePool := by
  obtain ⟨s, hs, hw⟩ : ∃ s, Run (step onePool)
    (fun s a => ¬ (s.after onePool a).total < s.total ∧ a.aborts = none) {}
      parkedBehind s ∧ (s.buckets true).waiters = [1] := Run.exists_of_mem (by decide +kernel)
  have hrun := hs.mono (fun _ _ => wakeful_of_quiet)
  exact ⟨s, hrun, hw, awake_of_wakeful hrun⟩

/-- The lookup of the only opening fails while a second call waits for its place. -/
def failedLookup : List (Event Bool) :=
  [.acquire 0 true fun _ => true, .acquire 1 true fun _ => true, .resolved 0 false]

/-- **A wakeup is lost**: the second call stays parked, although nothing is open or being opened. -/
theorem failedLookup_not_awake : ∃ s, Run (step onePool) (fun _ _ => True) {} failedLookup s ∧
    ¬ s.Awake onePool := by
  have hstate : (exec (step onePool) (fun _ _ => True) {} failedLookup).map (fun s =>
      ((s.buckets true).waiters, (s.buckets true).busy.length + (s.buckets true).opening,
        s.total)) =
      some ([1], 0, 0) := by decide +kernel
  have htask : (exec (step onePool) (fun _ _ => True) {} failedLookup).map Pool.task =
      some (Function.update (Function.update (Function.update (fun _ => .fresh) 0 (.resolving true))
        1
        (.waiting true {})) 0 (.failed .resolve)) := rfl
  obtain ⟨s, hs, hstate⟩ := Option.map_eq_some_iff.mp hstate
  rw [hs, Option.map_some, Option.some.injEq] at htask
  simp only [Prod.mk.injEq] at hstate
  obtain ⟨hw, hsum, htotal⟩ := hstate
  refine ⟨s, Run.of_exec hs, fun hawake => ?_⟩
  have hquiet : ∀ t, (s.task t).woken ≠ some true := by
    intro t
    rw [htask]
    simp only [update_apply]
    split_ifs <;> exact nofun
  obtain ⟨-, hfull | hfull⟩ := hawake true (by rw [hw]; exact cons_ne_nil _ _) hquiet
  · rw [hsum] at hfull
    exact absurd hfull (by decide)
  · rw [htotal] at hfull
    exact absurd hfull (by decide)

end Pool

end Cornet.Http.Client
