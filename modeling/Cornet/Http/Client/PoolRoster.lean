import Cornet.Http.Client.PoolLedger

/-!
# Http/Client/PoolRoster — the calls of the pool

    opening k  =  how many calls hold a guard on k          waiters k  =  the calls parked on k

`Roster` ties the buckets to the calls: the counter `opening` is a head count, the queue lists the
parked calls, a timer is armed only for a parked call, and a connection that is lent or granted is
in `busy` and belongs to one call.  A move changes the state of one call and the bucket it is at
(`Roster.write`); a release that serves a waiter is two such changes, one after the other
(`Roster.handOver`).
-/

namespace Cornet.Http.Client

open List Function Family

variable {κ : Type*}

/-- What a waiter can be: parked, or chosen once. -/
def Acquire.Sound : Acquire κ → Prop
  | .waiting _ v => v = {} ∨ v.wakes = 1 ∧ (v.granted = none ∨ v.expired = false)
  | _ => True

/-- How much a call adds to the counter `opening` of `k`. -/
def Acquire.guards [DecidableEq κ] (k : κ) (x : Acquire κ) : ℕ := if x.opens = some k then 1 else 0

namespace Acquire

theorem sound_of_ended {x : Acquire κ} (h : x.ended) : x.Sound := by
  cases x <;> simp_all [ended, Sound]

variable [DecidableEq κ] {k : κ} {x : Acquire κ}

theorem guards_of_none (h : x.opens = none) : x.guards k = 0 := by
  rw [guards, h]
  exact if_neg nofun

theorem guards_of_some (h : x.opens = some k) : x.guards k = 1 := if_pos h

end Acquire

namespace Pool

section

variable {s s' : Pool κ} {a : Event κ} {t : ℕ} {k : κ} {T : List (ℕ × ℕ)}

/-- Who is where: the counters and queues of the buckets against the calls they speak of. -/
structure Roster (s : Pool κ) : Prop where
  opening : ∀ k, census (fun t => (s.task t).opens) k = (s.buckets k).opening
  queue : ∀ t k, t ∈ (s.buckets k).waiters ↔ (s.task t).parked = some k
  distinct : ∀ k, (s.buckets k).waiters.Nodup
  timer : ∀ p ∈ s.timers, (s.task p.1).parked ≠ none
  waiter : ∀ t, (s.task t).Sound
  owner : ∀ t c, (s.task t).owns = some c → c ∈ (s.buckets c.key).busy
  alone : ∀ t u c, (s.task t).owns = some c → (s.task u).owns = some c → t = u

theorem Roster.init : Roster ({} : Pool κ) where
  opening _ := census_none fun _ => nofun
  queue _ _ := iff_of_false not_mem_nil nofun
  distinct _ := nodup_nil
  timer _ h := absurd h not_mem_nil
  waiter _ := trivial
  owner _ _ := nofun
  alone _ _ _ := nofun

theorem Roster.timer_ne (h : Roster s) (hpark : (s.task t).parked = none) {p : ℕ × ℕ}
    (hp : p ∈ s.timers) :
    p.1 ≠ t := by
  rintro rfl
  exact h.timer p hp hpark

/-- A move that touches idle lists and the clock only. -/
theorem Roster.congr (h : Roster s) (ht : s'.task = s.task) (htimer : s'.timers = s.timers)
    (hb : ∀ k, (s'.buckets k).waiters = (s.buckets k).waiters ∧
      (s'.buckets k).opening = (s.buckets k).opening ∧ (s'.buckets k).busy = (s.buckets k).busy) :
    Roster s' where
  opening k := by rw [ht, (hb k).2.1, h.opening]
  queue t k := by rw [ht, (hb k).1, h.queue]
  distinct k := by
    rw [(hb k).1]
    exact h.distinct k
  timer := by
    rw [ht, htimer]
    exact h.timer
  waiter := by
    rw [ht]
    exact h.waiter
  owner t c hc := by
    rw [ht] at hc
    rw [(hb c.key).2.2]
    exact h.owner t c hc
  alone := by
    rw [ht]
    exact h.alone

/-- A queued call is parked, and nothing has happened to it yet. -/
theorem Roster.waiting_of_mem (h : Roster s) (ht : t ∈ (s.buckets k).waiters) : s.task t = .waiting
    k {} := by
  have hpark := (h.queue t k).mp ht
  have hsound := h.waiter t
  cases htask : s.task
    t <;> rw [htask] at hpark hsound <;> simp only [Acquire.parked, reduceCtorEq] at hpark
  split at hpark
  · rename_i hv
    obtain rfl := Option.some.inj hpark
    rcases hsound with rfl | ⟨hone, -⟩
    · rfl
    · exact absurd hone (by omega)
  · cases hpark

/-- A queued call is not the one that holds a connection. -/
theorem Roster.ne_of_holding {w : ℕ} {c : Conn κ} {r : Bool} (h : Roster s)
    (hw : w ∈ (s.buckets k).waiters)
    (ht : s.task t = .holding c r) : w ≠ t := by
  rintro rfl
  rw [h.waiting_of_mem hw] at ht
  cases ht

/-- A call that is opening holds a guard. -/
theorem Roster.opening_pos (h : Roster s) (ht : (s.task t).opens = some k) : 0 <
    (s.buckets k).opening := by
  have hne := census_ne_zero (f := fun t => (s.task t).opens) ht
  rw [h.opening k] at hne
  exact Nat.pos_of_ne_zero fun hz => hne (by rw [hz]; rfl)

theorem Enters.timers_subset (he : Enters s a t k T) {p : ℕ × ℕ} (hp : p ∈ T) : p ∈ s.timers := by
  cases he with
  | start => exact hp
  | again => exact mem_of_mem_filter hp

end

variable [DecidableEq κ] {opt : Options} {s s' : Pool κ} {a : Event κ} {t : ℕ} {k : κ} {c : Conn κ}
  {b : Bucket κ} {x : Acquire κ}

/-- **One call changes its state**, and the bucket it is at follows. -/
theorem Roster.write (h : Roster s) (hb : s'.buckets k = b)
    (hother : ∀ j, j ≠ k → s'.buckets j = s.buckets j)
    (ht : s'.task = Function.update s.task t x) (hold : (s.task t).On k) (hnew : x.On k)
    (hopen : b.opening + (s.task t).guards k = (s.buckets k).opening + x.guards k)
    (hqueue : ∀ u, u ∈ b.waiters ↔ if u = t then x.parked = some k else u ∈ (s.buckets k).waiters)
    (hnodup : b.waiters.Nodup)
    (htimer : ∀ p ∈ s'.timers, p ∈ s.timers ∧ p.1 ≠ t ∨ p.1 = t ∧ x.parked ≠ none)
    (hsound : x.Sound) (hkeep : ∀ c ∈ (s.buckets k).busy, (s.task t).owns ≠ some c → c ∈ b.busy)
    (hown : ∀ c, x.owns = some c →
      c.key = k ∧ c ∈ b.busy ∧ (c ∈ (s.buckets k).busy → (s.task t).owns = some c)) : Roster s'
        where
  opening j := by
    have hrest : ∀ u, u ≠ t → ((s'.task u).opens = some j ↔ (s.task u).opens = some j) := by
      intro u hu
      rw [ht, update_of_ne hu]
    have hself : s'.task t = x := by rw [ht, update_self]
    rcases eq_or_ne j k with rfl | hj
    · refine census_eq_of_write hrest (h.opening j) ?_
      rw [hself, hb]
      exact hopen
    · rw [hother j hj, ← h.opening j]
      refine census_congr fun u => ?_
      rcases eq_or_ne u t with rfl | hu
      · rw [hself]
        exact iff_of_false (hnew j hj).1 (hold j hj).1
      · exact hrest u hu
  queue u j := by
    rcases eq_or_ne j k with rfl | hj
    · rw [hb, hqueue, ht]
      rcases eq_or_ne u t with rfl | hu
      · rw [if_pos rfl, update_self]
      · rw [if_neg hu, update_of_ne hu, h.queue]
    · rw [hother j hj, h.queue, ht]
      rcases eq_or_ne u t with rfl | hu
      · rw [update_self]
        exact iff_of_false (hold j hj).2 (hnew j hj).2
      · rw [update_of_ne hu]
  distinct j := by
    rcases eq_or_ne j k with rfl | hj
    · rwa [hb]
    · rw [hother j hj]
      exact h.distinct j
  timer p hp := by
    rw [ht]
    rcases htimer p hp with ⟨hmem, hne⟩ | ⟨rfl, hx⟩
    · rw [update_of_ne hne]
      exact h.timer p hmem
    · rwa [update_self]
  waiter u := by
    rw [ht]
    rcases eq_or_ne u t with rfl | hu
    · rwa [update_self]
    · rw [update_of_ne hu]
      exact h.waiter u
  owner u c hc := by
    rw [ht] at hc
    rcases eq_or_ne u t with rfl | hu
    · rw [update_self] at hc
      obtain ⟨rfl, hmem, -⟩ := hown c hc
      rwa [hb]
    · rw [update_of_ne hu] at hc
      have hmem := h.owner u c hc
      rcases eq_or_ne c.key k with rfl | hk
      · rw [hb]
        exact hkeep c hmem fun htc => hu (h.alone u t c hc htc)
      · rwa [hother _ hk]
  alone u v c hu hv := by
    -- another owner of what `t` now owns would have had it in `busy` before
    have hclash : ∀ w, w ≠ t → (s.task w).owns = some c → x.owns ≠ some c := by
      intro w hw hwc hxc
      obtain ⟨rfl, -, hold⟩ := hown c hxc
      exact hw (h.alone w t c hwc (hold (h.owner w c hwc)))
    rw [ht] at hu hv
    rcases eq_or_ne u t with hut | hut <;> rcases eq_or_ne v t with hvt | hvt
    · exact hut.trans hvt.symm
    · rw [hut, update_self] at hu
      rw [update_of_ne hvt] at hv
      exact absurd hu (hclash v hvt hv)
    · rw [hvt, update_self] at hv
      rw [update_of_ne hut] at hu
      exact absurd hv (hclash u hut hu)
    · rw [update_of_ne hut] at hu
      rw [update_of_ne hvt] at hv
      exact h.alone u v c hu hv

/-- The common case: the call is in no queue, before and after. -/
theorem Roster.write_unqueued (h : Roster s) (hb : s'.buckets k = b)
    (hother : ∀ j, j ≠ k → s'.buckets j = s.buckets j) (ht : s'.task = Function.update s.task t x)
    (hpark : (s.task t).parked = none) (hx : x.parked = none)
    (hold : (s.task t).opens = none ∨ (s.task t).opens = some k)
      (hnew : x.opens = none ∨ x.opens = some k)
    (hopen : b.opening + (s.task t).guards k = (s.buckets k).opening + x.guards k)
    (hwait : b.waiters = (s.buckets k).waiters) (htimer : ∀ p ∈ s'.timers, p ∈ s.timers)
      (hsound : x.Sound)
    (hkeep : ∀ c ∈ (s.buckets k).busy, (s.task t).owns ≠ some c → c ∈ b.busy)
    (hown : ∀ c, x.owns = some c →
      c.key = k ∧ c ∈ b.busy ∧ (c ∈ (s.buckets k).busy → (s.task t).owns = some c)) : Roster
        s' := by
  refine h.write hb hother ht (Acquire.on_iff.mpr ⟨hold, .inl hpark⟩)
    (Acquire.on_iff.mpr ⟨hnew, .inl hx⟩)
    hopen ?_ (hwait ▸ h.distinct k) ?_ hsound hkeep hown
  · intro u
    rw [hwait]
    split
    · rename_i hu
      rw [hu, h.queue, hpark, hx]
    · rfl
  · exact fun p hp => .inl ⟨htimer p hp, h.timer_ne hpark (htimer p hp)⟩

/-- The borrower is gone, and so is its connection from `busy`. -/
theorem Roster.release {r : Bool} (h : Roster s) (ht : s.task t = .holding c r)
    (hb : s'.buckets c.key = b)
    (hother : ∀ j, j ≠ c.key → s'.buckets j = s.buckets j)
    (htask : s'.task = Function.update s.task t .released)
    (hbusy : b.busy = (s.buckets c.key).busy.erase c)
      (hopen : b.opening = (s.buckets c.key).opening)
    (hwait : b.waiters = (s.buckets c.key).waiters) (htimer : s'.timers = s.timers) : Roster
      s' := by
  refine h.write_unqueued hb hother htask (by rw [ht]; rfl) rfl (.inl (by rw [ht]; rfl))
    (.inl rfl) ?_ hwait
    (fun p hp => htimer ▸ hp) trivial ?_ (fun d hd => by cases hd)
  · rw [ht, hopen]
    rfl
  · intro d hd hne
    rw [ht] at hne
    rw [hbusy]
    exact (mem_erase_of_ne fun hdc => hne (congrArg some hdc.symm)).mpr hd

/-- The front waiter of a bucket is chosen. -/
theorem Roster.wakeFront {w : ℕ} {ws : List ℕ} {g : Option (Conn κ)} (h : Roster s)
    (hw : (s.buckets k).waiters = w :: ws) (hb : s'.buckets k = b)
    (hother : ∀ j, j ≠ k → s'.buckets j = s.buckets j)
    (htask : s'.task = Function.update s.task w ((s.task w).wake g)) (hwait : b.waiters = ws)
    (hopen : b.opening = (s.buckets k).opening) (htimer : s'.timers = s.timers.filter (·.1 ≠ w))
    (hkeep : ∀ c ∈ (s.buckets k).busy, c ∈ b.busy)
    (hown : ∀ c, g = some c → c.key = k ∧ c ∈ b.busy ∧ c ∉ (s.buckets k).busy) : Roster s' := by
  have hwt := h.waiting_of_mem (hw ▸ mem_cons_self)
  have hnodup := h.distinct k
  rw [hw, nodup_cons] at hnodup
  rw [hwt] at htask
  refine h.write hb hother htask ?_ ?_ ?_ ?_ (hwait ▸ hnodup.2) ?_ (.inr ⟨rfl, .inr rfl⟩) ?_ ?_
  · rw [hwt]
    exact Acquire.on_iff.mpr ⟨.inl rfl, .inr rfl⟩
  · exact Acquire.on_iff.mpr ⟨.inl rfl, .inl rfl⟩
  · rw [hwt, hopen]
    rfl
  · intro u
    rw [hwait, hw]
    split
    · rename_i hu
      rw [hu]
      exact iff_of_false hnodup.1 (by simp [Acquire.wake, Acquire.parked])
    · rename_i hu
      simp [hu]
  · intro p hp
    rw [htimer] at hp
    exact .inl ⟨mem_of_mem_filter hp, by simpa using (mem_filter.mp hp).2⟩
  · exact fun c hc _ => hkeep c hc
  · intro c hc
    obtain ⟨hkey, hmem, hnot⟩ := hown c hc
    exact ⟨hkey, hmem, fun hbusy => absurd hbusy hnot⟩

/-- A borrower hands back and the front waiter is chosen, with a connection or with a slot. -/
theorem Roster.handOver {r : Bool} {w : ℕ} {ws : List ℕ} {g : Option (Conn κ)}
    {busy : List (Conn κ)}
    (h : Roster s) (hl : Ledger opt s) (ht : s.task t = .holding c r)
    (hw : (s.buckets c.key).waiters = w :: ws)
    (hb : s'.buckets = s.buckets.set c.key { s.buckets c.key with busy := busy, waiters := ws })
    (htask : s'.task = Function.update (Function.update s.task w ((s.task w).wake g)) t .released)
    (htimer : s'.timers = s.timers.filter (·.1 ≠ w))
    (hkeep : ∀ d ∈ (s.buckets c.key).busy.erase c, d ∈ busy)
    (hown : ∀ d, g = some d → d = c ∧ d ∈ busy) : Roster s' := by
  have hwt : w ≠ t := h.ne_of_holding (hw ▸ mem_cons_self) ht
  have hrel : Roster { s with
      buckets := s.buckets.set c.key { s.buckets c.key with busy := (s.buckets c.key).busy.erase c }
      task := Function.update s.task t .released } :=
    h.release ht (set_self ..) (fun j hj => set_of_ne _ _ hj) rfl rfl rfl rfl rfl
  have hother : ∀ j, j ≠ c.key → s'.buckets j = s.buckets j := by
    intro j hj
    rw [hb, set_of_ne _ _ hj]
  have hself : s'.buckets c.key = { s.buckets c.key with busy := busy, waiters := ws } := by
    rw [hb, set_self]
  refine hrel.wakeFront (g := g) ((congrArg Bucket.waiters (set_self ..)).trans hw) hself
    (fun j hj => (hother j hj).trans (set_of_ne _ _ hj).symm) ?_ rfl
    (by rw [set_self]) htimer ?_ ?_
  · dsimp only
    rw [update_of_ne hwt, htask, update_comm hwt]
  · intro d hd
    rw [set_self] at hd
    exact hkeep d hd
  · intro d hd
    obtain ⟨rfl, hmem⟩ := hown d hd
    refine ⟨rfl, hmem, ?_⟩
    rw [set_self]
    exact hl.not_mem_erase

/-- A waiter leaves the queue it may still be in. -/
theorem Roster.leaveQueue {v : Waiter κ} (h : Roster s) (ht : s.task t = .waiting k v)
    (hb : s'.buckets k = b) (hother : ∀ j, j ≠ k → s'.buckets j = s.buckets j)
    (htask : s'.task = Function.update s.task t x)
      (hwait : b.waiters = (s.buckets k).waiters.filter (· ≠ t))
    (hopen : b.opening = (s.buckets k).opening) (hbusy : b.busy = (s.buckets k).busy)
    (htimer : s'.timers = s.timers.filter (·.1 ≠ t)) (hx : x.opens = none ∧ x.parked = none)
    (hsound : x.Sound) (hown : ∀ c, x.owns ≠ some c) : Roster s' := by
  have hon : (s.task t).On k := by
    rw [ht, Acquire.on_iff]
    refine ⟨.inl rfl, ?_⟩
    rw [Acquire.parked]
    split
    · exact .inr rfl
    · exact .inl rfl
  refine h.write hb hother htask hon (Acquire.on_iff.mpr ⟨.inl hx.1, .inl hx.2⟩) ?_ ?_ ?_ ?_ hsound
    ?_ ?_
  · rw [ht, hopen, Acquire.guards_of_none hx.1]
    rfl
  · intro u
    rw [hwait, mem_filter, hx.2]
    split
    · rename_i hu
      simp [hu]
    · rename_i hu
      simp [hu]
  · rw [hwait]
    exact (h.distinct k).filter _
  · intro p hp
    rw [htimer] at hp
    exact .inl ⟨mem_of_mem_filter hp, by simpa using (mem_filter.mp hp).2⟩
  · exact fun c hc _ => hbusy ▸ hc
  · exact fun c hc => absurd hc (hown c)

/-- **The roster is kept** by every move. -/
theorem Roster.move (h : Roster s) (hl : Ledger opt s) (hm : Move opt s a s') : Roster s' := by
  cases hm with
  | @reuse a t k T c stale rest he hidle =>
    obtain ⟨ho, hp, hw⟩ := he.nowhere
    have hc : c ∈ (s.buckets k).idle := hidle ▸ mem_append_right _ mem_cons_self
    refine h.write_unqueued (set_self ..) (fun j hj => set_of_ne _ _ hj) rfl hp rfl (.inl ho)
      (.inl rfl) ?_ rfl (fun p => he.timers_subset) trivial ?_ ?_
    · rw [Acquire.guards_of_none ho]
      rfl
    · exact fun d hd _ => mem_append_left _ hd
    · intro d hd
      obtain rfl := Option.some.inj hd
      exact ⟨hl.home k c (Nat.add_pos_left (count_pos_iff.mpr hc) _),
        mem_append_right _ mem_cons_self, fun hbusy => absurd hbusy (hl.idle_not_busy hc)⟩
  | @opening a t k T he hhost htotal =>
    obtain ⟨ho, hp, hw⟩ := he.nowhere
    refine h.write_unqueued (set_self ..) (fun j hj => set_of_ne _ _ hj) rfl hp rfl (.inl ho)
      (.inr rfl) ?_ rfl (fun p => he.timers_subset) trivial (fun d hd _ => hd)
        (fun d hd => by cases hd)
    rw [Acquire.guards_of_none ho, Acquire.guards_of_some rfl]
  | @park a t k T he hfull =>
    obtain ⟨ho, hp, hw⟩ := he.nowhere
    have hnot : t ∉ (s.buckets k).waiters := by
      rw [h.queue, hp]
      rintro ⟨⟩
    refine h.write (set_self ..) (fun j hj => set_of_ne _ _ hj) rfl
      (Acquire.on_iff.mpr ⟨.inl ho, .inl hp⟩) (Acquire.on_iff.mpr ⟨.inl rfl, .inr rfl⟩) ?_ ?_ ?_ ?_
        (.inl rfl)
      (fun d hd _ => hd) (fun d hd => by cases hd)
    · rw [Acquire.guards_of_none ho]
      rfl
    · intro u
      rw [mem_append, mem_singleton]
      split
      · rename_i hu
        exact iff_of_true (.inr hu) rfl
      · rename_i hu
        exact or_iff_left hu
    · exact nodup_append.mpr ⟨h.distinct k, nodup_singleton t,
        fun u hu v hv huv => hnot (by rwa [← mem_singleton.mp hv, ← huv])⟩
    · intro p hp'
      have hT : ∀ p ∈ T, p ∈ s.timers ∧ p.1 ≠ t :=
        fun p hp' => ⟨he.timers_subset hp', h.timer_ne hp (he.timers_subset hp')⟩
      dsimp only at hp'
      split at hp'
      · rcases mem_cons.mp hp' with rfl | hp'
        · exact .inr ⟨rfl, by rintro ⟨⟩⟩
        · exact .inl (hT p hp')
      · exact .inl (hT p hp')
  | @resolve t k ht =>
    have ho : (s.task t).opens = some k := congrArg Acquire.opens ht
    refine h.write_unqueued rfl (fun _ _ => rfl) rfl (Acquire.parked_of_opens ho) rfl (.inr ho)
      (.inr rfl) ?_
      rfl (fun p hp => hp) trivial (fun d hd _ => hd) (fun d hd => by cases hd)
    rw [Acquire.guards_of_some ho, Acquire.guards_of_some rfl]
  | @drop a t k x ha ht hx =>
    obtain ⟨hxo, hxp, -, hxw⟩ := Acquire.of_ended hx
    have hpos := h.opening_pos ht
    refine h.write_unqueued (set_self ..) (fun j hj => set_of_ne _ _ hj) rfl
      (Acquire.parked_of_opens ht) hxp (.inr ht) (.inl hxo) ?_ rfl (fun p hp => hp)
        (Acquire.sound_of_ended hx)
      (fun d hd _ => hd) (fun d hd => by rw [hxw] at hd; cases hd)
    rw [Acquire.guards_of_some ht, Acquire.guards_of_none hxo]
    exact Nat.sub_add_cancel hpos
  | @adopt t k c ht hc =>
    have ho : (s.task t).opens = some k := congrArg Acquire.opens ht
    have hpos := h.opening_pos ho
    refine h.write_unqueued (set_self ..) (fun j hj => set_of_ne _ _ hj) rfl
      (Acquire.parked_of_opens ho) rfl (.inr ho) (.inl rfl) ?_ rfl (fun p hp => hp) trivial
      (fun d hd _ => mem_append_left _ hd) ?_
    · rw [Acquire.guards_of_some ho]
      exact Nat.sub_add_cancel hpos
    · intro d hd
      obtain rfl := Option.some.inj hd
      exact ⟨by rw [hc], mem_append_right _ mem_cons_self,
        fun hbusy => absurd (hl.opened_of_busy hbusy) (hl.fresh (by rw [hc]))⟩
  | @stray t c r _ _ ht hc =>
    exact absurd (h.owner t c (congrArg Acquire.owns ht)) hc
  | @close t c r _ _ ht hc hw | @shelve t c r _ _ ht hc hw hroom =>
    exact h.release ht (set_self ..) (fun j hj => set_of_ne _ _ hj) rfl rfl rfl rfl rfl
  | @pass t c r _ _ w ws ht hc hw =>
    exact h.handOver hl ht hw rfl rfl rfl (fun d hd => hd) (by rintro _ ⟨⟩)
  | @grant t c r _ _ w ws ht hc hw =>
    refine h.handOver hl ht hw rfl rfl rfl (fun d hd => mem_append_left _ hd) ?_
    intro d hd
    obtain rfl := Option.some.inj hd
    exact ⟨rfl, mem_append_right _ mem_cons_self⟩
  | @evict c hc =>
    refine h.congr rfl rfl fun j => ?_
    rcases eq_or_ne j c.key with rfl | hj
    · simp
    · simp [set_of_ne _ _ hj]
  | @expire t d k v ht hd =>
    have hv : v = {} := by
      have hpark := h.timer _ hd
      rw [ht, Acquire.parked] at hpark
      have hsound := h.waiter t
      rw [ht] at hsound
      rcases hsound with rfl | ⟨hone, -⟩
      · rfl
      · exact absurd (if_neg (by omega)) hpark
    obtain rfl := hv
    exact h.leaveQueue ht (set_self ..) (fun j hj => set_of_ne _ _ hj) rfl rfl rfl rfl rfl
      ⟨rfl, rfl⟩ (.inr ⟨rfl, .inl rfl⟩) (by rintro _ ⟨⟩)
  | @fail t k v _ ht hv he =>
    refine h.write_unqueued (k := k) rfl (fun _ _ => rfl) rfl ?_ rfl (.inl (by rw [ht]; rfl))
      (.inl rfl) ?_
      rfl (fun p => mem_of_mem_filter) trivial (fun d hd _ => hd) (fun d hd => by cases hd)
    · rw [ht]
      exact if_neg hv
    · rw [ht]
      rfl
  | @receive t k v c _ ht hv he hg =>
    have hown : (s.task t).owns = some c := by
      rw [ht]
      exact hg
    refine h.write_unqueued (k := c.key) rfl (fun _ _ => rfl) rfl ?_ rfl (.inl (by rw [ht]; rfl))
      (.inl rfl) ?_
      rfl (fun p => mem_of_mem_filter) trivial (fun d hd _ => hd) ?_
    · rw [ht]
      exact if_neg hv
    · rw [ht]
      rfl
    · intro d hd
      obtain rfl := Option.some.inj hd
      exact ⟨rfl, h.owner t c hown, fun _ => hown⟩
  | @leave t k v ht =>
    exact h.leaveQueue ht (set_self ..) (fun j hj => set_of_ne _ _ hj) rfl rfl rfl rfl rfl
      ⟨rfl, rfl⟩ trivial (by rintro _ ⟨⟩)
  | tick hd => exact h.congr rfl rfl fun _ => ⟨rfl, rfl, rfl⟩

end Pool

end Cornet.Http.Client
