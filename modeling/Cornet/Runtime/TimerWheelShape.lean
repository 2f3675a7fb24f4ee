import Cornet.Runtime.TimerWheel

/-!
# Runtime/TimerWheelShape — every slot heads the list of its nodes

    slot n = some s   ⟺   n ∈ L s ,        armed = #{ n | slot n ≠ none }

`Shape w L` is the meaning of the pointers: `L s` is the list slot `s` leads to.  `unlink` erases a
node from its list and `link` puts one in front; no other list is touched, whatever pointers were
written.  A walk that saves a pointer can come to a node that has left its list, but from there it
goes nowhere (`Neat`).
-/

namespace Cornet.TimerWheel

open List Function

variable {ν K : Type*} {w : Wheel ν K} {L : ℕ → List ν} {n m : ν} {s : ℕ}

/-- The lists the slots lead to. -/
structure Shape (w : Wheel ν K) (L : ℕ → List ν) : Prop where
  dll : ∀ s, Dll w.next w.prev (w.slots s) (L s)
  mem_iff : ∀ n s, n ∈ L s ↔ w.slot n = some s
  slot_lt : ∀ n s, w.slot n = some s → s < kSlots
  cursor_lt : w.cursor < kSlots
  counted : ∃ F : Finset ν, F.card = w.armed ∧ ∀ n, n ∈ F ↔ w.slot n ≠ none

/-- `armed_` counts the linked nodes. -/
theorem Shape.armed_eq (h : Shape w L) : {n | w.slot n ≠ none}.ncard = w.armed := by
  obtain ⟨F, hF, hmem⟩ := h.counted
  rw [← hF, ← Set.ncard_coe_finset]
  exact congrArg Set.ncard (Set.ext fun n => (hmem n).symm)

theorem shape_make (tick : ℤ) (onExpire : ν → Bool) (clock : K) :
    Shape (make tick onExpire clock) fun _ => [] where
  dll _ := dll_nil
  mem_iff n s := by simp [make]
  slot_lt n s h := by simp [make] at h
  cursor_lt := Nat.zero_lt_succ _
  counted := ⟨∅, rfl, fun n => by simp [make]⟩

/-- What does not look at the links does not change the shape. -/
theorem Shape.congr {w' : Wheel ν K} (h : Shape w L) (hnext : w'.next = w.next)
    (hprev : w'.prev = w.prev)
    (hslots : w'.slots = w.slots) (hslot : w'.slot = w.slot) (harmed : w'.armed = w.armed)
    (hcursor : w'.cursor < kSlots) : Shape w' L where
  dll s := by rw [hnext, hprev, hslots]; exact h.dll s
  mem_iff n s := by rw [hslot]; exact h.mem_iff n s
  slot_lt n s hs := h.slot_lt n s (by rwa [hslot] at hs)
  cursor_lt := hcursor
  counted := by rw [harmed, hslot]; exact h.counted

theorem Shape.unique {s' : ℕ} (h : Shape w L) (hs : n ∈ L s) (hs' : n ∈ L s') : s = s' :=
  Option.some.inj (((h.mem_iff n s).mp hs).symm.trans ((h.mem_iff n s').mp hs'))

variable [DecidableEq ν]

/-! ## Fields an operation leaves alone -/

section

variable (w n)

@[simp] theorem unlink_tick : (w.unlink n).tick = w.tick := by unfold Wheel.unlink; split <;> rfl
@[simp] theorem unlink_rounds : (w.unlink n).rounds = w.rounds :=
  by unfold Wheel.unlink; split <;> rfl
@[simp] theorem unlink_cursor : (w.unlink n).cursor = w.cursor :=
  by unfold Wheel.unlink; split <;> rfl
@[simp] theorem unlink_phase : (w.unlink n).phase = w.phase := by unfold Wheel.unlink; split <;> rfl
@[simp] theorem unlink_clock : (w.unlink n).clock = w.clock := by unfold Wheel.unlink; split <;> rfl
@[simp] theorem unlink_onExpire : (w.unlink n).onExpire = w.onExpire :=
  by unfold Wheel.unlink; split <;> rfl
@[simp] theorem unlink_log : (w.unlink n).log = w.log := by unfold Wheel.unlink; split <;> rfl

theorem unlink_slot : (w.unlink n).slot = Function.update w.slot n none := by
  cases hs : w.slot n with
  | none | some => simp [Wheel.unlink, hs]

variable (delay : ℤ)

@[simp] theorem cancel_tick : (w.cancel n).tick = w.tick := unlink_tick w n
@[simp] theorem cancel_rounds : (w.cancel n).rounds = w.rounds := unlink_rounds w n
@[simp] theorem cancel_cursor : (w.cancel n).cursor = w.cursor := unlink_cursor w n
@[simp] theorem cancel_phase : (w.cancel n).phase = w.phase := unlink_phase w n
@[simp] theorem cancel_clock : (w.cancel n).clock = w.clock := unlink_clock w n

@[simp] theorem cancel_log : (w.cancel n).log = w.log ++ [(w.clock, .cancel n)] := by
  simp [Wheel.cancel, Wheel.record]

@[simp] theorem expire_log : (w.expire n).log = w.log ++ [(w.clock, .fire n)] := by
  simp [Wheel.expire, Wheel.record]

@[simp] theorem arm_tick : (w.arm n delay).tick = w.tick := unlink_tick w n
@[simp] theorem arm_cursor : (w.arm n delay).cursor = w.cursor := unlink_cursor w n
@[simp] theorem arm_phase : (w.arm n delay).phase = w.phase := unlink_phase w n
@[simp] theorem arm_clock : (w.arm n delay).clock = w.clock := unlink_clock w n

@[simp] theorem arm_log : (w.arm n delay).log = w.log ++ [(w.clock, .arm n delay)] := by
  simp [Wheel.arm, Wheel.record, Wheel.place, Wheel.link]

theorem arm_slot : (w.arm n delay).slot
    = Function.update w.slot n (some ((w.cursor + Wheel.ticksFor w.tick delay) % kSlots)) := by
  simp [Wheel.arm, Wheel.record, Wheel.place, Wheel.link, unlink_slot]

theorem arm_rounds : (w.arm n delay).rounds
    = Function.update w.rounds n ((Wheel.ticksFor w.tick delay - 1) / kSlots % 2 ^ 32) := by
  simp [Wheel.arm, Wheel.record, Wheel.place, Wheel.link]

end

theorem store_apply (f : ν → Option ν) (p v : Option ν) (m : ν) :
    Wheel.store f p v m = if p = some m then v else f m := by
  cases p with
  | none => simp [Wheel.store]
  | some q => simp [Wheel.store, update_apply, eq_comm]

/-! ## Taking a node out, putting a node in -/

/-- **`unlink` erases the node from the list it is on**, if any. -/
theorem Shape.unlink (h : Shape w L) (n : ν) : Shape (w.unlink n) fun s => (L s).erase n := by
  have hmem : ∀ m s, m ∈ (L s).erase n ↔ (w.unlink n).slot m = some s := by
    intro m s
    rw [unlink_slot, (h.dll s).nodup.mem_erase_iff, h.mem_iff]
    by_cases hmn : m = n <;> simp [hmn]
  have hlt : ∀ m s, (w.unlink n).slot m = some s → s < kSlots := by
    intro m s hs
    rw [← hmem] at hs
    exact h.slot_lt m s ((h.mem_iff m s).mp (mem_of_mem_erase hs))
  cases hs : w.slot n with
  | none =>
    have hw : w.unlink n = w := by simp [Wheel.unlink, hs]
    have hL : (fun s => (L s).erase n) = L := funext fun s =>
      erase_of_not_mem fun hn => by simp [(h.mem_iff n s).mp hn] at hs
    rw [hw, hL]
    exact h
  | some s =>
    have hn : n ∈ L s := (h.mem_iff n s).mpr hs
    obtain ⟨F, hF, hmemF⟩ := h.counted
    refine ⟨fun s' => ?_, hmem, hlt, by simpa using h.cursor_lt, F.erase n, ?_, fun m => ?_⟩
    · simp only [Wheel.unlink, hs]
      refine dlls_remove h.dll h.unique hn (fun m hm => ?_) (fun m hm => ?_) ?_
      · rw [update_of_ne hm, store_apply]
      · rw [update_of_ne hm, store_apply]
      · by_cases hp : w.prev n = none <;> simp [hp, update_apply]
    · rw [Finset.card_erase_of_mem ((hmemF n).mpr (by simp [hs])), hF]
      simp [Wheel.unlink, hs]
    · rw [Finset.mem_erase, hmemF, unlink_slot]
      by_cases hmn : m = n <;> simp [hmn]

/-- **`link` puts an unlinked node in front of a list.** -/
theorem Shape.link (h : Shape w L) (hn : w.slot n = none) (hs : s < kSlots) :
    Shape (w.link n s) (Function.update L s (n :: L s)) := by
  have hfree : ∀ s', n ∉ L s' := fun s' hmem => by simp [(h.mem_iff n s').mp hmem] at hn
  obtain ⟨F, hF, hmemF⟩ := h.counted
  refine ⟨fun s' => ?_, fun m s' => ?_, fun m s' hm => ?_, h.cursor_lt, insert n F, ?_, fun m => ?_⟩
  · refine dlls_push h.dll h.unique hfree (update_self ..) ?_ (fun m hm => update_of_ne hm _ _)
      (fun m hm => ?_)
      (update_apply ..)
    · simp only [Wheel.link]
      rw [store_apply, update_self, if_neg]
      exact fun hx => hfree s (mem_of_mem_head? ((h.dll s).head_eq ▸ hx))
    · simp only [Wheel.link]
      rw [store_apply, update_of_ne hm]
  · have hm := h.mem_iff m s'
    by_cases hss : s' = s <;> by_cases hmn : m = n
    · simp [Wheel.link, hss, hmn]
    · subst hss
      simp [Wheel.link, hmn, hm]
    · simp [Wheel.link, update_of_ne hss, hmn, hfree s', Ne.symm hss]
    · simp [Wheel.link, update_of_ne hss, hmn, hm]
  · by_cases hmn : m = n
    · obtain rfl : s = s' := by simpa [Wheel.link, hmn] using hm
      exact hs
    · exact h.slot_lt m s' (by simpa [Wheel.link, hmn] using hm)
  · rw [Finset.card_insert_of_notMem (by simp [hmemF, hn]), hF]
    rfl
  · rw [Finset.mem_insert, hmemF]
    by_cases hmn : m = n <;> simp [Wheel.link, hmn]

theorem Shape.place (h : Shape w L) (hn : w.slot n = none) (delay : ℤ) :
    Shape (w.place n delay) (Function.update L ((w.cursor + Wheel.ticksFor w.tick delay) % kSlots)
      (n :: L ((w.cursor + Wheel.ticksFor w.tick delay) % kSlots))) :=
  (h.link hn (Nat.mod_lt _ (by decide))).congr rfl rfl rfl rfl rfl h.cursor_lt

/-! ## Where a walk can go -/

/-- The lists have a meaning, and a node that is off the wheel leads nowhere. -/
structure Neat (w : Wheel ν K) : Prop where
  shape : ∃ L, Shape w L
  loose : ∀ n, w.slot n = none → w.next n = none

omit [DecidableEq ν] in
theorem neat_make (tick : ℤ) (onExpire : ν → Bool) (clock : K) : Neat (make tick onExpire clock) :=
  ⟨⟨_, shape_make tick onExpire clock⟩, fun _ _ => rfl⟩

omit [DecidableEq ν] in
theorem Neat.congr {w' : Wheel ν K} (h : Neat w) (hnext : w'.next = w.next)
    (hprev : w'.prev = w.prev)
    (hslots : w'.slots = w.slots) (hslot : w'.slot = w.slot) (harmed : w'.armed = w.armed)
    (hcursor : w'.cursor < kSlots) : Neat w' := by
  obtain ⟨⟨L, hs⟩, hl⟩ := h
  exact ⟨⟨L, hs.congr hnext hprev hslots hslot harmed hcursor⟩, hslot ▸ hnext ▸ hl⟩

omit [DecidableEq ν] in
theorem Neat.cursor_lt (h : Neat w) : w.cursor < kSlots := h.shape.choose_spec.cursor_lt

omit [DecidableEq ν] in
/-- A link leads to another node, and to one that is on the wheel. -/
theorem Neat.next_linked (h : Neat w) (hn : w.next n = some m) : w.slot m ≠ none ∧ m ≠ n := by
  obtain ⟨⟨L, hs⟩, hl⟩ := h
  cases hslot : w.slot n with
  | none =>
    rw [hl n hslot] at hn
    cases hn
  | some s =>
    have hmem : n ∈ L s := (hs.mem_iff n s).mpr hslot
    refine ⟨?_, ?_⟩
    · rw [(hs.mem_iff m s).mp ((hs.dll s).next_mem hmem hn)]
      nofun
    · rintro rfl
      obtain ⟨a, c, heq⟩ := append_of_mem hmem
      have hd := hs.dll s
      rw [heq] at hd
      rw [hd.next_eq] at hn
      exact (nodup_cons.mp (nodup_append'.mp hd.nodup).2.1).1 (mem_of_mem_head? hn)

omit [DecidableEq ν] in
theorem Neat.head_linked (h : Neat w) (hn : w.slots s = some n) : w.slot n ≠ none := by
  obtain ⟨⟨L, hs⟩, -⟩ := h
  rw [(hs.dll s).head_eq] at hn
  rw [(hs.mem_iff n s).mp (mem_of_mem_head? hn)]
  nofun

theorem Neat.unlink (h : Neat w) (n : ν) : Neat (w.unlink n) := by
  obtain ⟨⟨L, hs⟩, hl⟩ := h
  refine ⟨⟨_, hs.unlink n⟩, fun m hm => ?_⟩
  cases hslot : w.slot n with
  | none =>
    rw [unlink_slot] at hm
    have hsame : w.unlink n = w := by simp [Wheel.unlink, hslot]
    rw [hsame]
    rcases eq_or_ne m n with rfl | hne
    · exact hl m hslot
    · exact hl m (by rwa [update_of_ne hne] at hm)
  | some s =>
    rw [unlink_slot] at hm
    have hnext : (w.unlink n).next = Function.update (Wheel.store w.next (w.prev n) (w.next n)) n
      none := by
      simp [Wheel.unlink, hslot]
    rw [hnext]
    rcases eq_or_ne m n with rfl | hne
    · exact update_self ..
    · rw [update_of_ne hne] at hm ⊢
      rw [store_apply, if_neg, hl m hm]
      intro hp
      rw [(hs.mem_iff m s).mp ((hs.dll s).prev_mem ((hs.mem_iff n s).mpr hslot) hp)] at hm
      cases hm

theorem Neat.arm (h : Neat w) (n : ν) (delay : ℤ) : Neat (w.arm n delay) := by
  have hfree : (w.unlink n).slot n = none := by rw [unlink_slot, update_self]
  obtain ⟨⟨L, hs⟩, hl⟩ := h.unlink n
  refine ⟨⟨_, (hs.place hfree delay).congr rfl rfl rfl rfl rfl (hs.place hfree delay).cursor_lt⟩,
    fun m hm => ?_⟩
  rw [arm_slot] at hm
  have hne : m ≠ n := by
    rintro rfl
    rw [update_self] at hm
    cases hm
  rw [update_of_ne hne] at hm
  change Function.update (w.unlink n).next n _ m = none
  rw [update_of_ne hne]
  exact hl m (by rwa [unlink_slot, update_of_ne hne])

theorem Neat.cancel (h : Neat w) (n : ν) : Neat (w.cancel n) :=
  (h.unlink n).congr rfl rfl rfl rfl rfl (h.unlink n).cursor_lt

theorem Neat.call (h : Neat w) : ∀ o : Op ν, Neat (w.call o)
  | .arm n delay => h.arm n delay
  | .cancel n => h.cancel n

theorem Neat.step {w' : Wheel ν K} {a : Act ν} (h : Neat w)
    (hst : step w a = some w') : Neat w' := by
  cases move_of_step hst with
  | call o => exact h.call o
  | advance => exact h.congr rfl rfl rfl rfl rfl (Nat.mod_lt _ (by decide))
  | skip | ret | done => exact h.congr rfl rfl rfl rfl rfl h.cursor_lt
  | expire n => exact (h.unlink n).congr rfl rfl rfl rfl rfl (h.unlink n).cursor_lt

/-- The walk comes to this node next. -/
def Phase.Aims (n : ν) : Phase ν → Prop
  | .idle => False
  | .loop x => x = some n
  | .callback _ x => x = some n

theorem call_slot {o : Op ν} (hn : o.node ≠ n) : (w.call o).slot n = w.slot n := by
  cases o with
  | arm m delay =>
    rw [Wheel.call, arm_slot]
    exact update_of_ne (Ne.symm hn) ..
  | cancel m =>
    change (w.unlink m).slot n = _
    rw [unlink_slot]
    exact update_of_ne (Ne.symm hn) ..

theorem call_phase (o : Op ν) : (w.call o).phase = w.phase := by
  cases o with
  | arm m delay => exact arm_phase w m delay
  | cancel m => exact cancel_phase w m

theorem call_onExpire (o : Op ν) : (w.call o).onExpire = w.onExpire := by
  cases o with
  | arm m delay | cancel m => exact unlink_onExpire w m

/-- **Off the wheel and out of the walk's way**, a node stays there until it is armed. -/
theorem Neat.stays_off {w' : Wheel ν K} {a : Act ν} (h : Neat w) (hslot : w.slot n = none)
    (haims : ¬ w.phase.Aims n) (hcall : ∀ o, a = .call o → o.node ≠ n)
      (hst : TimerWheel.step w a = some w') :
    w'.slot n = none ∧ ¬ w'.phase.Aims n := by
  have hlinked {x : Option ν} (hx : ∀ m, x = some m → w.slot m ≠ none) : x ≠ some n :=
    fun hn => hx n hn hslot
  cases move_of_step hst with
  | call o => exact ⟨(call_slot (hcall o rfl)).trans hslot, (call_phase o).symm ▸ haims⟩
  | advance => exact ⟨hslot, hlinked fun m hm => h.head_linked hm⟩
  | skip m => exact ⟨hslot, hlinked fun k hk => (h.next_linked hk).1⟩
  | expire m hphase =>
    have hne : n ≠ m := by
      rintro rfl
      exact haims (hphase ▸ rfl)
    refine ⟨?_, ?_⟩
    · change (w.unlink m).slot n = none
      rw [unlink_slot, update_of_ne hne]
      exact hslot
    · have hnext : w.next m ≠ some n := hlinked fun k hk => (h.next_linked hk).1
      change ¬ (if _ then Phase.callback m (w.next m) else .loop (w.next m)).Aims n
      split
      · exact hnext
      · exact hnext
  | ret m x hphase =>
    rw [hphase] at haims
    exact ⟨hslot, haims⟩
  | done => exact ⟨hslot, nofun⟩

end Cornet.TimerWheel
