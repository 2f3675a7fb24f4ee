import Cornet.Runtime.TimerWheelShape
import Cornet.Concurrency.Deadline

/-!
# Concurrency/DeadlineRuns — a deadline fires once, unless it fires inline

    fired by the wheel:    node off the wheel, out of the walk's way, latched
    fired inline:          latched, and the node still armed

The wheel takes the node off before it calls back, and a fired deadline is left alone by every
operation until `reset`: so it never fires again.  `cap` and the completion of an operation fire
without taking the node off, and the wheel will expire it a second time.
-/

namespace Cornet.Deadline

open Function TimerWheel

variable {ν K : Type*} [DecidableEq ν] {s t : Deadline ν K}

/-! ## The log -/

theorem era_snoc (log : List Event) {e : Event} (he : e ≠ .reset) : era (log ++ [e]) = era log ++
    [e] := by
  simp [era, he]

theorem era_reset (log : List Event) : era (log ++ [.reset]) = [] := by simp [era]

/-! ## The invariant -/

/-- **A deadline that keeps its promise**, and what it takes to keep it: an era that stands has its
node on the wheel, what has not fired has nothing to hide, and what has fired is out of the walk's
way. -/
structure Live (s : Deadline ν K) : Prop extends Sound s where
  neat : TimerWheel.Neat s.wheel
  rings : s.wheel.onExpire s.node = true
  armed : s.budgetNs ≠ 0 → s.fired = false → s.wheel.slot s.node ≠ none
  fresh : s.fired = false → .fire ∉ era s.log
  passed : s.fired = true → ¬ s.wheel.phase.Aims s.node

theorem live_make (node : ν) (tick : ℤ) (onExpire : ν → Bool) (clock : K) : Live
    (make node tick onExpire clock) where
  clean := throughout_nil
  counted := rfl
  latched := nofun
  neat := neat_make tick _ clock
  rings := update_self ..
  armed h := absurd rfl h
  fresh _ := List.not_mem_nil
  passed := nofun

/-- An era is opened, or its node moved. -/
theorem Live.arm (h : Live s) (hf : s.fired = false) (b : ℕ) (d : ℤ) : Live
    ({ s with budgetNs := b }.arm d) where
  clean := h.clean.snoc (h.fresh hf)
  counted := by
    change s.timeouts = (s.log ++ [Event.arm]).count Event.fire
    rw [List.count_append, h.counted]
    rfl
  latched hc := by
    rw [show (({ s with budgetNs := b } : Deadline ν K).arm d).fired = s.fired from rfl, hf] at hc
    cases hc
  neat := h.neat.arm s.node d
  rings := (congrFun (unlink_onExpire s.wheel s.node) _).trans h.rings
  armed _ _ := by
    change (s.wheel.arm s.node d).slot s.node ≠ none
    rw [arm_slot, update_self]
    nofun
  fresh _ := by
    change Event.fire ∉ era (s.log ++ [.arm])
    rw [era_snoc _ (by decide)]
    simpa using h.fresh hf
  passed hc := by
    rw [show (({ s with budgetNs := b } : Deadline ν K).arm d).fired = s.fired from rfl, hf] at hc
    cases hc

theorem cancel_slot (w : TimerWheel.Wheel ν K) (n : ν) : (w.cancel n).slot n = none := by
  change (w.unlink n).slot n = none
  rw [unlink_slot, update_self]

/-- An era is ended. -/
theorem Live.disarm (h : Live s) : Live { s with budgetNs := 0 }.disarm where
  clean := h.clean
  counted := h.counted
  latched hc := ⟨(h.latched hc).1, cancel_slot s.wheel s.node⟩
  neat := h.neat.cancel s.node
  rings := (congrFun (unlink_onExpire s.wheel s.node) _).trans h.rings
  armed hc := absurd rfl hc
  fresh := h.fresh
  passed hc := by
    change ¬ (s.wheel.cancel s.node).phase.Aims s.node
    rw [cancel_phase]
    exact h.passed hc

theorem Live.setBudget (h : Live s) (now : ℕ) (d : ℤ) : Live (s.setBudget now d) := by
  rw [Deadline.setBudget]
  split_ifs with hf hb
  · exact h
  · exact h.arm (Bool.eq_false_iff.mpr hf) _ d
  · exact h.disarm

theorem Live.reset (h : Live s) (hr : s.reset = .ok t) : Live t := by
  rw [Deadline.reset] at hr
  split_ifs at hr
  obtain rfl := Except.ok.inj hr
  exact {
    clean := h.clean.snoc trivial
    counted := by
      change s.timeouts = (s.log ++ [Event.reset]).count Event.fire
      rw [List.count_append, h.counted]
      rfl
    latched := nofun
    neat := h.neat.cancel s.node
    rings := (congrFun (unlink_onExpire s.wheel s.node) _).trans h.rings
    armed := fun hc => absurd rfl hc
    fresh := fun _ => by
      change Event.fire ∉ era (s.log ++ [.reset])
      rw [era_reset]
      exact List.not_mem_nil
    passed := nofun }

omit [DecidableEq ν] in
/-- How many operations are in flight is nothing to it. -/
theorem Live.track (h : Live s) (n : ℕ) : Live { s with tracked := n } :=
  ⟨⟨h.clean, h.counted, h.latched⟩, h.neat, h.rings, h.armed, h.fresh, h.passed⟩

/-! ## Firing -/

omit [DecidableEq ν] in
/-- **Fired inline**: the latch says one thing and the wheel another. -/
theorem Live.not_sound_fire (h : Live s) (hf : s.fired = false) (hb : s.budgetNs ≠ 0) : ¬ Sound
    s.fire :=
  fun hs => h.armed hb hf (hs.latched rfl).2

/-- **Fired by the wheel**, which has taken the node off. -/
theorem Live.ring (h : Live s) (hf : s.fired = false) : Live
    ({ s with wheel := s.wheel.expire s.node }.fire) where
  clean := h.clean.snoc (h.fresh hf)
  counted := by
    change s.timeouts + 1 = (s.log ++ [Event.fire]).count Event.fire
    rw [List.count_append, h.counted]
    rfl
  latched _ := by
    refine ⟨rfl, ?_⟩
    change (s.wheel.unlink s.node).slot s.node = none
    rw [unlink_slot, update_self]
  neat := (h.neat.unlink s.node).congr rfl rfl rfl rfl rfl (h.neat.unlink s.node).cursor_lt
  rings := (congrFun (unlink_onExpire s.wheel s.node) _).trans h.rings
  armed _ := nofun
  fresh := nofun
  passed _ := by
    have hphase : (s.wheel.expire s.node).phase = .callback s.node (s.wheel.next s.node) :=
      if_pos h.rings
    change ¬ (s.wheel.expire s.node).phase.Aims s.node
    rw [hphase]
    exact fun hc => (h.neat.next_linked hc).2 rfl

/-- The inline fire is not reached. -/
def Unspent (s : Deadline ν K) : Act ν → Prop
  | .cap now _ | .complete now _ => s.fired = true ∨ s.budgetNs = 0 ∨ now < s.budgetNs
  | _ => True

instance (s : Deadline ν K) (a : Act ν) : Decidable (Unspent s a) := by
  cases a <;> simp only [Unspent] <;> infer_instance

/-- Either the clock has not reached the end of the era, or `fire()` is called on the spot. -/
theorem Live.cap (h : Live s) (now : ℕ) (d : ℤ) :
    Unspent s (.cap now d) ∧ Live (s.cap now d) ∨ ¬ Unspent s (.cap now d) ∧
      ¬ Sound (s.cap now d) := by
  rw [Deadline.cap, Unspent]
  split_ifs with hf hb
  · exact .inl ⟨.inl hf, h⟩
  · refine .inr ⟨?_, h.not_sound_fire (Bool.eq_false_iff.mpr hf) hb.1⟩
    rintro (hc | hc | hc)
    · exact hf hc
    · exact hb.1 hc
    · exact absurd hb.2 (Nat.not_le.mpr hc)
  all_goals
    refine .inl ⟨.inr ?_, h.arm (Bool.eq_false_iff.mpr hf) s.budgetNs _⟩
    by_contra hc
    exact hb ⟨fun h0 => hc (.inl h0), Nat.le_of_not_lt fun hlt => hc (.inr hlt)⟩

theorem Live.restoreAfterOp (h : Live s) (now : ℕ) (submitted : Bool) :
    Unspent s (.complete now submitted) ∧ Live (s.restoreAfterOp now) ∨
      ¬ Unspent s (.complete now submitted) ∧ ¬ Sound (s.restoreAfterOp now) := by
  rw [Deadline.restoreAfterOp, Unspent]
  split_ifs with hf hb hn
  · exact .inl ⟨.inl hf, h⟩
  · refine .inl ⟨.inr (.inl hb), ?_⟩
    have hsame : { s with budgetNs := 0 } = s := by rw [← hb]
    exact hsame ▸ h.disarm
  · refine .inr ⟨?_, h.not_sound_fire (Bool.eq_false_iff.mpr hf) hb⟩
    rintro (hc | hc | hc)
    · exact hf hc
    · exact hb hc
    · exact absurd hn (Nat.not_le.mpr hc)
  · exact .inl ⟨.inr (.inr (Nat.lt_of_not_le hn)), h.arm (Bool.eq_false_iff.mpr hf) s.budgetNs _⟩

theorem Live.complete (h : Live s) (now : ℕ) (submitted : Bool) :
    Unspent s (.complete now submitted) ∧ Live (s.complete now submitted) ∨
      ¬ Unspent s (.complete now submitted) ∧ ¬ Sound (s.complete now submitted) := by
  rw [Deadline.complete]
  rcases h.restoreAfterOp now submitted with ⟨hu, hl⟩ | ⟨hu, hs⟩
  · refine .inl ⟨hu, ?_⟩
    split_ifs
    · exact hl.track _
    · exact hl
  · refine .inr ⟨hu, ?_⟩
    split_ifs
    · exact fun hc => hs ⟨hc.clean, hc.counted, hc.latched⟩
    · exact hs

/-! ## The wheel turns -/

omit [DecidableEq ν] in
/-- A step of the wheel that leaves this node where it is. -/
theorem Live.aside {w : TimerWheel.Wheel ν K} (h : Live s) (hneat : TimerWheel.Neat w)
    (hrings : w.onExpire = s.wheel.onExpire) (hslot : w.slot s.node = s.wheel.slot s.node)
    (hpassed : s.fired = true → ¬ w.phase.Aims s.node) : Live { s with wheel := w } where
  clean := h.clean
  counted := h.counted
  latched hf := ⟨(h.latched hf).1, hslot.trans (h.latched hf).2⟩
  neat := hneat
  rings := (congrFun hrings _).trans h.rings
  armed hb hf := by
    change w.slot s.node ≠ none
    rw [hslot]
    exact h.armed hb hf
  fresh := h.fresh
  passed := hpassed

theorem Live.turn {a : TimerWheel.Act ν} (h : Live s) (hst : s.turn a = some t) : Live t := by
  have hoff {w : TimerWheel.Wheel ν K} (hcall : ∀ o, a = .call o → o.node ≠ s.node)
      (hst : TimerWheel.step s.wheel a = some w) (hf : s.fired = true) : ¬ w.phase.Aims s.node :=
    (h.neat.stays_off (h.latched hf).2 (h.passed hf) hcall hst).2
  cases a with
  | call o =>
    obtain ⟨⟨hfree, hne⟩, rfl⟩ : (s.free = true ∧ o.node ≠ s.node) ∧ _ = t :=
      by simpa [Deadline.turn] using hst
    have hphase : (s.wheel.call o).phase = s.wheel.phase := call_phase o
    exact h.aside (h.neat.call o) (call_onExpire o) (call_slot hne)
      fun hf => hphase ▸ h.passed hf
  | advance | ret | done =>
    obtain ⟨w, hw, rfl⟩ := Option.map_eq_some_iff.mp hst
    have hneat := h.neat.step hw
    have hpassed := hoff nofun hw
    cases move_of_step hw
    exact h.aside hneat rfl rfl hpassed
  | visit =>
    obtain ⟨w, hw, rfl⟩ := Option.map_eq_some_iff.mp hst
    have hneat := h.neat.step hw
    have hpassed := hoff nofun hw
    cases move_of_step hw with
    | skip n => exact h.aside hneat rfl rfl hpassed
    | expire n hphase =>
      rcases eq_or_ne n s.node with rfl | hne
      · have hf : s.fired = false := by
          rw [Bool.eq_false_iff]
          exact fun hf => h.passed hf (hphase ▸ rfl)
        have hcallback : (s.wheel.expire s.node).phase = .callback s.node (s.wheel.next s.node) :=
          if_pos h.rings
        have hrings : s.rings (s.wheel.expire s.node) .visit = true :=
          by simp [Deadline.rings, hcallback]
        rw [hrings]
        exact h.ring hf
      · have hquiet : s.rings (s.wheel.expire n) .visit = false := by
          have hcallback : (s.wheel.expire n).phase =
              if s.wheel.onExpire n then .callback n (s.wheel.next n) else .loop (s.wheel.next n) :=
                rfl
          simp only [Deadline.rings, hcallback]
          split_ifs <;> simp [hne]
        rw [hquiet]
        refine h.aside hneat (unlink_onExpire _ n) ?_ hpassed
        change (s.wheel.unlink n).slot s.node = _
        rw [unlink_slot, update_of_ne (Ne.symm hne)]

/-! ## Runs -/

/-- **One step**: the promise is kept unless the step fires inline, and then it is broken. -/
theorem Live.step {a : Act ν} (h : Live s) (hst : s.step a = some t) :
    Unspent s a ∧ Live t ∨ ¬ Unspent s a ∧ ¬ Sound t := by
  cases a with
  | setBudget now d =>
    obtain ⟨-, rfl⟩ : s.free = true ∧ _ = t := by simpa [Deadline.step] using hst
    exact .inl ⟨trivial, h.setBudget now d⟩
  | cap now d =>
    obtain ⟨-, rfl⟩ : s.free = true ∧ _ = t := by simpa [Deadline.step] using hst
    exact h.cap now d
  | start =>
    obtain ⟨-, rfl⟩ : (s.free = true ∧ _) ∧ s.start = t := by simpa [Deadline.step] using hst
    exact .inl ⟨trivial, h.track _⟩
  | complete now submitted =>
    obtain ⟨-, rfl⟩ : (s.free = true ∧ _) ∧ s.complete now submitted = t :=
      by simpa [Deadline.step] using hst
    exact h.complete now submitted
  | resolve =>
    obtain ⟨-, rfl⟩ : (s.free = true ∧ _) ∧ s.resolve = t := by simpa [Deadline.step] using hst
    exact .inl ⟨trivial, h.track _⟩
  | reset =>
    refine .inl ⟨trivial, ?_⟩
    simp only [Deadline.step] at hst
    split at hst
    · cases hr : s.reset with
      | ok r =>
        rw [hr] at hst
        obtain rfl := Option.some.inj hst
        exact h.reset hr
      | error e =>
        rw [hr] at hst
        obtain rfl := Option.some.inj hst
        exact h
    · cases hst
  | wheel a => exact .inl ⟨trivial, h.turn hst⟩

/-- **Once, exactly.**  In every run in which no `cap` and no completion finds the era spent, a
deadline fires at most once between two resets and is not armed once it has, its canceler is
cancelled then, and its node is off the wheel; and the first call that finds the era spent breaks
the promise. -/
theorem sound_iff {node : ν} {tick : ℤ} {onExpire : ν → Bool} {clock : K} {as : List (Act ν)}
    (h : Run step Unspent (make node tick onExpire clock) as s) :
    s.Sound ∧ ∀ a t, s.step a = some t → (t.Sound ↔ Unspent s a) := by
  have hlive : Live s := by
    refine Run.invariant (I := Live) (live_make node tick onExpire clock) ?_ h
    intro s a t hs hu hst
    exact ((hs.step hst).resolve_right fun hc => hc.1 hu).2
  refine ⟨hlive.toSound, fun a t hst => ?_⟩
  rcases hlive.step hst with ⟨hu, ht⟩ | ⟨hu, ht⟩
  · exact iff_of_true ht.toSound hu
  · exact iff_of_false ht hu

/-- An era, an operation under a cap, the wheel that runs out, and a reset that has to wait for the
operation. -/
def eraWord : List (Act ℕ) :=
  [.wheel (.call (.arm 1 10)), .setBudget 0 20, .cap 5 10, .start, .wheel .advance, .wheel .visit,
    .wheel .ret, .wheel .visit, .wheel .ret, .wheel .done, .cap 30 5, .reset, .complete 30 true,
      .reset, .cap 40 5]

theorem sound_iff_era : ∃ s : Deadline ℕ Unit, Run step Unspent (make 0 10 (fun _ => true) ())
    eraWord s ∧ s.Sound ∧
    s.log = [.arm, .arm, .fire, .reset, .arm] :=
  Run.exists_and_of_mem (fun h => (sound_iff h).1) (by decide +kernel)

/-- **Fired twice.**  An era of 10 ms is armed on a wheel of 10 ms; `cap` finds it spent and fires,
and leaves the node to the wheel, which fires again. -/
theorem spent_era_fires_twice : ∃ s : Deadline ℕ Unit,
    Run step (fun _ _ => True) (make 0 10 (fun _ => true) ())
      [.setBudget 0 10, .cap 10000000 5, .wheel .advance, .wheel .visit] s ∧
    s.timeouts = 2 ∧ ¬ s.Sound := by
  have hend : ∃ s ∈ exec step (fun _ _ => True) (make 0 10 (fun _ => true) () : Deadline ℕ Unit)
      [.setBudget 0 10, .cap 10000000 5, .wheel .advance, .wheel .visit],
      s.log = [.arm, .fire, .fire] ∧ s.timeouts = 2 := by
    decide +kernel
  obtain ⟨s, hs, hlog, hcount⟩ := hend
  refine ⟨s, .of_exec hs, hcount, fun hc => ?_⟩
  have hclean : Clean [.arm, .fire] .fire := hc.clean [.arm, .fire] .fire [] hlog
  simp [Clean, era] at hclean

end Cornet.Deadline
