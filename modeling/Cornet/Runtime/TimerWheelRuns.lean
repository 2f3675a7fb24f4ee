import Cornet.Runtime.TimerWheelShape

/-!
# Runtime/TimerWheelRuns — a timer fires in the advance it was armed for

    elapsed  +  ticks left  =  due            for every arming that stands

`advance()` saves the node behind the one it expires.  As long as the callback leaves **that** node
alone (`Sparing`) it may arm and cancel anything, and every timer fires exactly when it should
(`throughout_of_sparing`); a callback that cancels or re-arms the saved node makes the walk continue
from a node that has left the list (`cancelled_timer_fires`).
-/

namespace Cornet.TimerWheel

open List Function

variable {ν K : Type*} [DecidableEq ν] {w w' : Wheel ν K} {L : ℕ → List ν} {rest : List ν} {n m : ν}
  {s : ℕ}

/-! ## The invariant -/

/-- The advances until a node of slot `s` fires.  The nodes of `rest` are the ones the current walk
has still to visit. -/
def Wheel.left (w : Wheel ν K) (rest : List ν) (n : ν) (s : ℕ) : ℕ :=
  (if n ∈ rest then 0 else (s + (kSlots - 1) - w.cursor) % kSlots + 1) + kSlots * w.rounds n

/-- The local variables of the loop point into the part of the list that is still to be visited. -/
def Phase.Walks : Phase ν → List ν → Prop
  | .idle, rest => rest = []
  | .loop x, rest => x = rest.head?
  | .callback n x, rest => x = rest.head? ∧ n ∉ rest

/-- The wheel holds what the log says is pending, each node as many advances away as it should
be. -/
structure Sim (w : Wheel ν K) (L : ℕ → List ν) (rest : List ν) : Prop extends Shape w L where
  suffix : rest <:+ L w.cursor
  walks : w.phase.Walks rest
  sched : ∀ n, Option.Rel (fun a s => a.elapsed + w.left rest n s = due w.tick a.delay)
    (pending w.log n) (w.slot n)

theorem Sim.nodup (h : Sim w L rest) : rest.Nodup := (h.dll w.cursor).nodup.sublist h.suffix.sublist

theorem Sim.slot_of_mem (h : Sim w L rest) (hn : n ∈ rest) : w.slot n = some w.cursor :=
  (h.mem_iff n _).mp (h.suffix.subset hn)

theorem Sim.length_le (h : Sim w L rest) : rest.length ≤ w.armed := by
  obtain ⟨F, hF, hmem⟩ := h.counted
  rw [← toFinset_card_of_nodup h.nodup, ← hF]
  refine Finset.card_le_card fun n hn => (hmem n).mpr ?_
  rw [h.slot_of_mem (mem_toFinset.mp hn)]
  simp

theorem sim_make (tick : ℤ) (onExpire : ν → Bool) (clock : K) :
    Sim (make tick onExpire clock) (fun _ => []) [] where
  toShape := shape_make tick onExpire clock
  suffix := nil_suffix
  walks := rfl
  sched _ := .none

/-! ## Calls -/

theorem ticksFor_eq {tick : ℕ} {delay : ℤ} (htick : 0 < tick) (h₀ : 0 ≤ delay)
    (hsum : delay + tick < 2 ^ 63) (hlt : due tick delay < 2 ^ 64) :
    Wheel.ticksFor tick delay = due tick delay := by
  have hwrap : (delay + tick - 1).bmod (2 ^ 64) = delay + tick - 1 :=
    Int.bmod_eq_of_le (by omega) (by omega)
  obtain ⟨d, rfl⟩ := Int.eq_ofNat_of_zero_le h₀
  have hq : ((d : ℤ) + tick - 1).tdiv tick = ((d + tick - 1) / tick : ℕ) := by
    rw [show (d : ℤ) + tick - 1 = ((d + tick - 1 : ℕ) : ℤ) by omega]
    exact (Int.ofNat_tdiv _ _).symm
  simp only [due, Int.toNat_natCast, Nat.ceilDiv_eq_add_pred_div] at hlt ⊢
  simp only [Wheel.ticksFor, hwrap, hq]
  generalize (d + tick - 1) / tick = q at hlt ⊢
  have hmod : ((q : ℤ) % 2 ^ 64).toNat = q := by omega
  rw [hmod]
  split <;> omega

/-- The delays the wheel can represent, and add a tick to. -/
def InRange (tick : ℕ) : Op ν → Prop
  | .arm _ delay => 0 ≤ delay ∧ delay + tick < 2 ^ 63 ∧ due tick delay < kSlots * 2 ^ 32
  | .cancel _ => True

/-- A freshly placed node is as far away as it was armed for. -/
theorem left_place {cursor ticks : ℕ} (hcursor : cursor < kSlots) (hpos : 0 < ticks)
    (hlt : ticks < kSlots * 2 ^ 32) :
    ((cursor + ticks) % kSlots + (kSlots - 1) - cursor) % kSlots + 1
      + kSlots * ((ticks - 1) / kSlots % 2 ^ 32) = ticks := by
  simp only [kSlots] at *
  omega

theorem erase_suffix {l : List ν} (hnd : l.Nodup) (h : rest <:+ l) (n : ν) :
    rest.erase n <:+ l.erase n := by
  obtain ⟨a, rfl⟩ := h
  by_cases hn : n ∈ a
  · have hrest : n ∉ rest := fun hr => disjoint_of_nodup_append hnd hn hr
    rw [erase_append_left _ hn, erase_of_not_mem hrest]
    exact suffix_append _ _
  · rw [erase_append_right _ hn]
    exact suffix_append _ _

theorem Phase.Walks.erase {p : Phase ν} (h : p.Walks rest) (hn : rest.head? ≠ some n) :
    p.Walks (rest.erase n) := by
  have hhead : (rest.erase n).head? = rest.head? := by
    cases rest with
    | nil => rfl
    | cons b l => rw [erase_cons_tail (by simpa using hn)]; rfl
  cases p with
  | idle => obtain rfl : rest = [] := h; rfl
  | loop x => exact Eq.trans h hhead.symm
  | callback m x => exact ⟨h.1.trans hhead.symm, fun hm => h.2 (mem_of_mem_erase hm)⟩

theorem Sim.left_erase (h : Sim w L rest) (hm : m ≠ n) (hw : w'.cursor = w.cursor)
    (hr : w'.rounds m = w.rounds m) : w'.left (rest.erase n) m = w.left rest m := by
  funext s
  simp only [Wheel.left, hw, hr, h.nodup.mem_erase_iff, hm, ne_eq, not_false_eq_true, true_and]

theorem rel_imp {α β : Type*} {r r' : α → β → Prop} {x : Option α} {y : Option β}
    (himp : ∀ a b, y = some b → r a b → r' a b) (h : Option.Rel r x y) : Option.Rel r' x y := by
  cases h with
  | some h => exact .some (himp _ _ rfl h)
  | none => exact .none

theorem Sim.cancel (h : Sim w L rest) (hn : rest.head? ≠ some n) :
    Sim (w.cancel n) (fun s => (L s).erase n) (rest.erase n) where
  toShape := (h.toShape.unlink n).congr rfl rfl rfl rfl rfl (h.toShape.unlink n).cursor_lt
  suffix := by simpa only [cancel_cursor] using erase_suffix (h.dll w.cursor).nodup h.suffix n
  walks := by simpa only [cancel_phase] using h.walks.erase hn
  sched m := by
    have hslot : (w.cancel n).slot = Function.update w.slot n none := unlink_slot w n
    rw [cancel_log, pending_snoc, cancel_tick, hslot]
    by_cases hm : m = n
    · subst hm
      simp [observe]
    · rw [observe, if_neg (Ne.symm hm), update_of_ne hm]
      refine rel_imp (fun a s _ hs => ?_) (h.sched m)
      rwa [h.left_erase hm (by simp) (by simp)]

theorem Sim.arm {delay : ℤ} (h : Sim w L rest) (hn : rest.head? ≠ some n)
    (hr : InRange w.tick (.arm n delay)) : ∃ L', Sim (w.arm n delay) L' (rest.erase n) := by
  have hdue : Wheel.ticksFor w.tick delay = due w.tick delay :=
    ticksFor_eq w.tick_pos hr.1 hr.2.1 (hr.2.2.trans (by decide))
  have hpos : 0 < due w.tick delay := Nat.lt_of_lt_of_le Nat.zero_lt_one (Nat.le_max_left _ _)
  have hslot : (w.cursor + due w.tick delay) % kSlots < kSlots := Nat.mod_lt _ (by decide)
  have hfree : (w.unlink n).slot n = none := by simp [unlink_slot]
  have hsh := (h.toShape.unlink n).place hfree delay
  refine ⟨_, hsh.congr rfl rfl rfl rfl rfl hsh.cursor_lt, ?_, ?_, fun m => ?_⟩
  · refine (erase_suffix (h.dll w.cursor).nodup h.suffix n).trans ?_
    rw [arm_cursor, update_apply]
    split
    · rename_i heq
      rw [← heq]
      exact suffix_cons _ _
    · exact suffix_rfl
  · simpa only [arm_phase] using h.walks.erase hn
  · rw [arm_log, pending_snoc, arm_tick, arm_slot, hdue]
    by_cases hm : m = n
    · subst hm
      simp only [observe, ↓reduceIte, update_self]
      refine .some ?_
      rw [Wheel.left, if_neg (fun hm => (h.nodup.mem_erase_iff.mp hm).1 rfl), arm_cursor,
        arm_rounds, hdue,
        update_self, Nat.zero_add]
      exact left_place h.cursor_lt hpos hr.2.2
    · rw [observe, if_neg (Ne.symm hm), update_of_ne hm]
      refine rel_imp (fun a s _ hs => ?_) (h.sched m)
      rwa [h.left_erase hm (by simp) (by simp [arm_rounds, hm])]

/-- **A call keeps the invariant** unless it names the node the walk goes to next. -/
theorem Sim.call {o : Op ν} (h : Sim w L rest) (hn : rest.head? ≠ some o.node)
    (hr : InRange w.tick o) : ∃ L', Sim (w.call o) L' (rest.erase o.node) := by
  cases o with
  | arm n delay => exact h.arm hn hr
  | cancel n => exact ⟨_, h.cancel hn⟩

/-! ## The walk -/

theorem Sim.advance (h : Sim w L rest) (hphase : w.phase = .idle) :
    Sim w.advance L (L w.advance.cursor) where
  toShape := h.toShape.congr rfl rfl rfl rfl rfl (Nat.mod_lt _ (by decide))
  suffix := suffix_rfl
  walks := (h.dll _).head_eq
  sched n := by
    obtain rfl : rest = [] := by simpa [hphase, Phase.Walks] using h.walks
    have hcur := h.cursor_lt
    simp only [Wheel.advance, Wheel.record, pending_snoc, observe]
    rcases hp : pending w.log n with - | a <;> rcases hs : w.slot n with - | s
    · exact .none
    · simpa [hp, hs] using h.sched n
    · simpa [hp, hs] using h.sched n
    · have hsched : a.elapsed + w.left [] n s = due w.tick a.delay := by
        simpa [hp, hs] using h.sched n
      have hlt := h.slot_lt n s hs
      refine .some ?_
      rw [← hsched]
      simp only [Wheel.left, h.mem_iff, hs, not_mem_nil, Option.some.injEq, ↓reduceIte, kSlots] at *
      split <;> omega

/-- A node with laps to wait stays where it is, one lap closer. -/
theorem Sim.skip (h : Sim w L (n :: rest)) (hr : 0 < w.rounds n) : Sim (w.skip n) L rest where
  toShape := h.toShape.congr rfl rfl rfl rfl rfl h.cursor_lt
  suffix := (suffix_cons n rest).trans h.suffix
  walks := by
    obtain ⟨a, ha⟩ := h.suffix
    have hd := h.dll w.cursor
    rw [← ha] at hd
    exact hd.next_eq
  sched m := by
    have hcur := h.cursor_lt
    have hnd := nodup_cons.mp h.nodup
    rcases eq_or_ne m n with rfl | hm
    · refine rel_imp (fun a s hslot hs => ?_) (h.sched m)
      obtain rfl : w.cursor = s := Option.some.inj ((h.slot_of_mem mem_cons_self).symm.trans hslot)
      refine Eq.trans ?_ hs
      simp only [Wheel.left, Wheel.skip, mem_cons, true_or, hnd.1, ↓reduceIte, update_self,
        kSlots] at *
      omega
    · refine rel_imp (fun a s _ hs => ?_) (h.sched m)
      refine Eq.trans ?_ hs
      simp [Wheel.left, Wheel.skip, hm]

/-- A node that is due leaves the wheel; the log says it was time. -/
theorem Sim.expire (h : Sim w L (n :: rest)) (hr : w.rounds n = 0) :
    Sim (w.expire n) (fun s => (L s).erase n) rest ∧
      ∃ a, pending w.log n = some a ∧ a.elapsed = due w.tick a.delay := by
  have hnd := nodup_cons.mp h.nodup
  have hnext : w.next n = rest.head? := by
    obtain ⟨a, ha⟩ := h.suffix
    have hd := h.dll w.cursor
    rw [← ha] at hd
    exact hd.next_eq
  refine ⟨⟨(h.toShape.unlink n).congr rfl rfl rfl rfl rfl (h.toShape.unlink n).cursor_lt, ?_, ?_,
    fun m => ?_⟩, ?_⟩
  · have hs := erase_suffix (h.dll w.cursor).nodup h.suffix n
    simpa [Wheel.expire, Wheel.record] using hs
  · simp only [Wheel.expire, Wheel.record, hnext]
    split
    · exact ⟨rfl, hnd.1⟩
    · rfl
  · have hslot : (w.expire n).slot = Function.update w.slot n none := unlink_slot w n
    rw [expire_log, pending_snoc, hslot]
    rcases eq_or_ne m n with rfl | hm
    · simp [observe]
    · rw [observe, if_neg (Ne.symm hm), update_of_ne hm]
      refine rel_imp (fun a s _ hs => ?_) (h.sched m)
      simpa [Wheel.left, Wheel.expire, Wheel.record, hm] using hs
  · have hs := h.sched n
    rw [h.slot_of_mem mem_cons_self] at hs
    obtain ⟨a, ha⟩ : ∃ a, pending w.log n = some a := by
      cases hp : pending w.log n with
      | none => simp [hp] at hs
      | some a => exact ⟨a, rfl⟩
    refine ⟨a, ha, ?_⟩
    simpa [ha, Wheel.left, hr] using hs

/-- A walk that is over leaves nothing behind that was due. -/
theorem Sim.done (h : Sim w L []) : ∀ n a, pending w.log n = some a →
    a.elapsed < due w.tick a.delay := by
  intro n a ha
  have hs := h.sched n
  cases hslot : w.slot n with
  | none => simp [ha, hslot] at hs
  | some s =>
    simp only [ha, hslot, Option.rel_some_some, Wheel.left, not_mem_nil, ↓reduceIte] at hs
    omega

/-! ## Runs -/

/-- The walk has not saved this node. -/
def Phase.Spares (n : ν) : Phase ν → Prop
  | .callback _ next => next ≠ some n
  | _ => True

/-- **The calls a walk survives**: their delays are in range, and none made from a callback names
the node the walk has saved. -/
def Sparing (w : Wheel ν K) : Act ν → Prop
  | .call o => InRange w.tick o ∧ w.phase.Spares o.node
  | _ => True

/-- A call the walk survives does not name the node it goes to next. -/
theorem Sparing.head?_ne {o : Op ν} (h : Sim w L rest) (hok : Sparing w (.call o))
    (hphase : ∀ x, w.phase ≠ .loop x) : rest.head? ≠ some o.node := by
  have hwalks := h.walks
  have hspare := hok.2
  cases hp : w.phase with
  | idle =>
    obtain rfl : rest = [] := by simpa [hp, Phase.Walks] using hwalks
    simp
  | loop x => exact absurd hp (hphase x)
  | callback n x =>
    rw [hp] at hwalks hspare
    exact hwalks.1 ▸ hspare

theorem call_onTime (o : Op ν) (hlog : Throughout (OnTime w.tick) w.log) :
    (w.call o).tick = w.tick ∧ Throughout (OnTime w.tick) (w.call o).log := by
  cases o with
  | arm n delay => exact ⟨arm_tick w n delay, by rw [Wheel.call, arm_log]; exact hlog.snoc trivial⟩
  | cancel n => exact ⟨cancel_tick w n, by rw [Wheel.call, cancel_log]; exact hlog.snoc trivial⟩

/-- **One step.**  The invariant is kept, what is logged is on time, and a walk only gets
shorter. -/
theorem sim_step {a : Act ν} (h : Sim w L rest) (hok : Sparing w a)
    (hlog : Throughout (OnTime w.tick) w.log) (hst : step w a = some w') :
    w'.tick = w.tick ∧ Throughout (OnTime w.tick) w'.log ∧ ∃ L' rest', Sim w' L' rest' ∧
      (a ≠ .advance → rest'.length + (if a = .visit then 1 else 0) ≤ rest.length) := by
  have hwalks := h.walks
  cases move_of_step hst with
  | call o hphase =>
    obtain ⟨L', hsim⟩ := h.call (Sparing.head?_ne h hok hphase) hok.1
    obtain ⟨htick, hlog'⟩ := call_onTime o hlog
    exact ⟨htick, hlog', L', _, hsim, fun _ => by simpa using erase_sublist.length_le⟩
  | advance hphase =>
    exact ⟨rfl, hlog.snoc trivial, L, _, h.advance hphase, fun hne => absurd rfl hne⟩
  | skip n hphase hr =>
    rw [hphase] at hwalks
    obtain ⟨rest', rfl⟩ : ∃ l, rest = n :: l := head?_eq_some_iff.mp (Eq.symm hwalks)
    exact ⟨rfl, hlog, L, rest', h.skip hr, fun _ => by simp⟩
  | expire n hphase hr =>
    rw [hphase] at hwalks
    obtain ⟨rest', rfl⟩ : ∃ l, rest = n :: l := head?_eq_some_iff.mp (Eq.symm hwalks)
    obtain ⟨hsim, htime⟩ := h.expire hr
    refine ⟨unlink_tick w n, ?_, _, rest', hsim, fun _ => by simp⟩
    rw [expire_log]
    exact hlog.snoc htime
  | ret n x hphase =>
    rw [hphase] at hwalks
    exact ⟨rfl, hlog, L, rest, ⟨h.toShape.congr rfl rfl rfl rfl rfl h.cursor_lt, h.suffix, hwalks.1,
      h.sched⟩,
      fun _ => by simp⟩
  | done hphase =>
    rw [hphase] at hwalks
    obtain rfl : rest = [] := head?_eq_none_iff.mp (Eq.symm hwalks)
    refine ⟨rfl, hlog.snoc h.done, L, [],
      ⟨h.toShape.congr rfl rfl rfl rfl rfl h.cursor_lt, h.suffix, rfl,
      fun n => ?_⟩, fun _ => by simp⟩
    rw [Wheel.finish, Wheel.record, pending_snoc]
    exact h.sched n

/-- **Every run.**  From any state the invariant holds in, what the run logs is on time, and it
visits no more nodes than are armed unless it enters `advance()` again. -/
theorem sim_run {as : List (Act ν)} (h : Sim w L rest) (hlog : Throughout (OnTime w.tick) w.log)
    (hrun : Run step Sparing w as w') :
    w'.tick = w.tick ∧ Throughout (OnTime w.tick) w'.log ∧ ∃ L' rest', Sim w' L' rest' ∧
      (.advance ∉ as → rest'.length + as.count .visit ≤ rest.length) := by
  induction hrun with
  | nil => exact ⟨rfl, hlog, L, rest, h, fun _ => by simp⟩
  | @snoc as w₁ w₂ a _ hok hst ih =>
    obtain ⟨htick, hlog₁, L₁, rest₁, hsim, hlen⟩ := ih
    rw [← htick] at hlog₁
    obtain ⟨htick₂, hlog₂, L₂, rest₂, hsim₂, hlen₂⟩ := sim_step hsim hok hlog₁ hst
    refine ⟨htick₂.trans htick, htick ▸ hlog₂, L₂, rest₂, hsim₂, fun hadv => ?_⟩
    have h₁ := hlen fun hm => hadv (mem_append_left _ hm)
    have h₂ := hlen₂ fun ha => hadv (by simp [ha])
    rw [count_append, count_singleton]
    simp only [beq_iff_eq]
    omega

/-- **Callbacks may do anything but touch the saved node.**  In every run whose callbacks spare it,
a node fires in the advance its latest arming asked for and never after being cancelled; an advance
leaves no node behind that was due; and from any state reached the walk visits at most as many nodes
as are armed, whatever the callbacks do in between. -/
theorem throughout_of_sparing {tick : ℤ} {onExpire : ν → Bool} {clock : K} {as : List (Act ν)}
    (hrun : Run step Sparing (make tick onExpire clock) as w) :
    Throughout (OnTime w.tick) w.log ∧
      ∀ bs w', Run step Sparing w bs w' → .advance ∉ bs → bs.count .visit ≤ w.armed := by
  obtain ⟨htick, hlog, L, rest, hsim, -⟩ :=
    sim_run (sim_make tick onExpire clock) throughout_nil hrun
  rw [← htick] at hlog
  refine ⟨hlog, fun bs w' hbs hadv => ?_⟩
  obtain ⟨-, -, L', rest', -, hlen⟩ := sim_run hsim hlog hbs
  have h₁ := hlen hadv
  have h₂ := hsim.length_le
  omega

instance (tick : ℕ) : ∀ o : Op ν, Decidable (InRange tick o)
  | .arm _ delay =>
    inferInstanceAs (Decidable (0 ≤ delay ∧ delay + tick < 2 ^ 63 ∧
      due tick delay < kSlots * 2 ^ 32))
  | .cancel _ => inferInstanceAs (Decidable True)

instance (n : ν) : ∀ p : Phase ν, Decidable (p.Spares n)
  | .callback _ next => inferInstanceAs (Decidable (next ≠ some n))
  | .idle | .loop _ => inferInstanceAs (Decidable True)

instance (w : Wheel ν K) : ∀ a, Decidable (Sparing w a)
  | .call o => inferInstanceAs (Decidable (InRange w.tick o ∧ w.phase.Spares o.node))
  | .advance | .visit | .ret | .done => inferInstanceAs (Decidable True)

/-- Three timers in one slot: the callback of the first cancels the third and re-arms itself. -/
def sparingWord : List (Act ℕ) :=
  [.call (.arm 0 10), .call (.arm 1 10), .call (.arm 2 10), .advance, .visit, .call (.cancel 0),
    .call (.arm 2 5), .ret, .visit, .ret, .done]

theorem throughout_of_sparing_word : ∃ w : Wheel ℕ Unit,
    Run step Sparing (make 10 (fun _ => true) ()) sparingWord w ∧ Throughout (OnTime w.tick) w.log ∧
      w.log.map (·.2) = [.arm 0 10, .arm 1 10, .arm 2 10, .tick, .fire 2, .cancel 0, .arm 2 5,
        .fire 1,
        .tock] :=
  Run.exists_and_of_mem (fun h => (throughout_of_sparing h).1) (by decide +kernel)

/-- Calls in range, and nothing else asked of the callbacks. -/
def Ranged (w : Wheel ν K) : Act ν → Prop
  | .call o => InRange w.tick o
  | _ => True

instance (w : Wheel ν K) : ∀ a, Decidable (Ranged w a)
  | .call o => inferInstanceAs (Decidable (InRange w.tick o))
  | .advance | .visit | .ret | .done => inferInstanceAs (Decidable True)

/-- **A cancelled timer fires.**  Two timers stand in one slot; the callback of the first cancels
the second, which is the node the walk has saved, and the walk expires it all the same. -/
theorem cancelled_timer_fires : ∃ as, ∃ w : Wheel ℕ Unit,
    Run step Ranged (make 10 (fun _ => true) ()) as w ∧ ¬ Throughout (OnTime w.tick) w.log := by
  have hend : ∃ w ∈ exec step Ranged (make 10 (fun _ => true) () : Wheel ℕ Unit) [.call (.arm 0 10),
    .call (.arm 1 10),
      .advance, .visit, .call (.cancel 0), .ret, .visit],
      w.log = [((), .arm 0 10), ((), .arm 1 10), ((), .tick), ((), .fire 1), ((), .cancel 0),
        ((), .fire 0)] := by
    decide +kernel
  obtain ⟨w, hw, hlog⟩ := hend
  refine ⟨_, w, .of_exec hw, fun htime => ?_⟩
  obtain ⟨a, ha, -⟩ :=
    htime [((), .arm 0 10), ((), .arm 1 10), ((), .tick), ((), .fire 1), ((), .cancel 0)]
    ((), .fire 0) [] hlog
  simp [pending, observe] at ha

/-! ## Callbacks that keep to themselves -/

/-- The callback that runs, if any, is this node's. -/
def Phase.Owns (n : ν) : Phase ν → Prop
  | .callback m _ => n = m
  | _ => True

/-- A callback touches its own node only. -/
def Own (w : Wheel ν K) : Act ν → Prop
  | .call o => InRange w.tick o ∧ w.phase.Owns o.node
  | _ => True

/-- The node being expired is not the one the walk goes to next. -/
theorem Sim.sparing_of_own {a : Act ν} (h : Sim w L rest) (hown : Own w a) : Sparing w a := by
  cases a with
  | call o =>
    refine ⟨hown.1, ?_⟩
    have hsame := hown.2
    have hwalks := h.walks
    cases hp : w.phase with
    | callback n x =>
      rw [hp] at hsame hwalks
      rintro rfl
      exact hwalks.2 (hsame ▸ mem_of_mem_head? hwalks.1.symm)
    | _ => trivial
  | _ => trivial

theorem run_sparing_of_own {as : List (Act ν)} (h : Sim w L rest)
    (hlog : Throughout (OnTime w.tick) w.log)
    (hrun : Run step Own w as w') : Run step Sparing w as w' := by
  induction hrun with
  | nil => exact .nil
  | snoc _ hown hst ih =>
    obtain ⟨-, -, L₁, rest₁, hsim, -⟩ := sim_run h hlog ih
    exact ih.snoc (hsim.sparing_of_own hown) hst

/-- **The exact tick.**  Where callbacks touch only their own node, a node fires exactly at the
`max 1 ⌈delay / tick⌉`-th advance after its latest arm, once per arming, and not at all if it is
cancelled first; every walk ends; and `armed_` counts the linked nodes. -/
theorem exact_tick_of_own {tick : ℤ} {onExpire : ν → Bool} {clock : K} {as : List (Act ν)}
    (hrun : Run step Own (make tick onExpire clock) as w) :
    Throughout (OnTime w.tick) w.log ∧ {n | w.slot n ≠ none}.ncard = w.armed ∧
      ∀ bs w', Run step Own w bs w' → .advance ∉ bs → bs.count .visit ≤ w.armed := by
  have hspare := run_sparing_of_own (sim_make tick onExpire clock) throughout_nil hrun
  obtain ⟨htick, hlog, L, rest, hsim, -⟩ :=
    sim_run (sim_make tick onExpire clock) throughout_nil hspare
  rw [← htick] at hlog
  refine ⟨hlog, hsim.armed_eq, fun bs w' hbs hadv => ?_⟩
  obtain ⟨-, -, L', rest', -, hlen⟩ := sim_run hsim hlog (run_sparing_of_own hsim hlog hbs)
  exact (Nat.le_add_left _ _).trans ((hlen hadv).trans hsim.length_le)

instance (n : ν) : ∀ p : Phase ν, Decidable (p.Owns n)
  | .callback m _ => inferInstanceAs (Decidable (n = m))
  | .idle | .loop _ => inferInstanceAs (Decidable True)

instance (w : Wheel ν K) : ∀ a, Decidable (Own w a)
  | .call o => inferInstanceAs (Decidable (InRange w.tick o ∧ w.phase.Owns o.node))
  | .advance | .visit | .ret | .done => inferInstanceAs (Decidable True)

/-- A timer of 25 ms on a 10 ms wheel fires at the third advance, where its callback arms it
again. -/
theorem exact_tick_of_own_rearm : ∃ as, ∃ w : Wheel ℕ Unit,
    Run step Own (make 10 (fun _ => true) ()) as w ∧ Throughout (OnTime w.tick) w.log ∧
      w.log.map (·.2) = [.arm 0 25, .tick, .tock, .tick, .tock, .tick, .fire 0, .arm 0 1, .tock] :=
  ⟨[.call (.arm 0 25), .advance, .done, .advance, .done, .advance, .visit, .call (.arm 0 1), .ret,
    .done],
    Run.exists_and_of_mem (fun h => (exact_tick_of_own h).1) (by decide +kernel)⟩

/-- **A sum past 64 bits.**  A timer due at the second advance is still there behind it: its delay
and the tick add up to a negative number, and the node goes to another slot. -/
theorem overflowing_delay_missed : ∃ w : Wheel ℕ Unit, Run step (fun _ _ => True)
    (make (2 ^ 62) (fun _ => true) ())
    [.call (.arm 0 (2 ^ 63 - 1)), .advance, .done, .advance, .done] w ∧
      due w.tick (2 ^ 63 - 1) = 2 ∧ ¬Throughout (OnTime w.tick) w.log := by
  obtain ⟨w, hw, hdue, hlog⟩ : ∃ w : Wheel ℕ Unit, Run step (fun _ _ => True)
      (make (2 ^ 62) (fun _ => true) ())
      [.call (.arm 0 (2 ^ 63 - 1)), .advance, .done, .advance, .done] w ∧
      due w.tick (2 ^ 63 - 1) = 2 ∧
      w.log = [((), .arm 0 (2 ^ 63 - 1)), ((), .tick), ((), .tock), ((), .tick), ((), .tock)] :=
    Run.exists_of_mem (by decide +kernel)
  refine ⟨w, hw, hdue, fun htime => ?_⟩
  have hlate := htime [((), .arm 0 (2 ^ 63 - 1)), ((), .tick), ((), .tock), ((), .tick)]
    ((), .tock) [] hlog
  have hlt : 2 < due w.tick (2 ^ 63 - 1) := hlate 0 _ rfl
  omega

end Cornet.TimerWheel
