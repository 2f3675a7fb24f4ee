import Cornet.Concurrency.Scope

/-!
# Concurrency/ScopeRuns — the parent runs again once, after everybody

    activeCount  =  #{ children that have not ended }          0 behind the join

A child is counted from `spawn` on, and only the body and children that run can spawn: so when the
count is zero and the body has been left, nobody will raise it again, and the runner may pass on.
It passes on exactly once, and to a handle nobody else resumes.  Whether there is still a coroutine
behind that handle it does not know.
-/

namespace Cornet.TaskScope

variable {κ : Type*} [DecidableEq κ] {s t : Scope κ} {c : κ}

/-! ## What a scope promises -/

section

omit [DecidableEq κ]

/-- No child has still to end. -/
def Scope.Idle (s : Scope κ) : Prop := ∀ c, (s.children c).live = 0

/-- The body and all children have ended, and the scheduler has nothing left to do. -/
def Scope.AtRest (s : Scope κ) : Prop :=
  s.Idle ∧ (s.runner = .joining ∨ s.runner = .done) ∧ s.continuation = false

/-- **The contract**: the parent is resumed at most once, only when the body and all children have
ended, and it is by the time the scope has come to rest; it gets the first failure, which has
triggered the canceler; and a parent that was destroyed is left alone. -/
structure Sound (s : Scope κ) : Prop where
  once : s.resumes ≤ 1
  after : s.resumes = 1 → s.runner = .done ∧ s.Idle
  comes : s.AtRest → s.resumes = 1
  sees : ∀ r ∈ s.seen, r = if s.failures = [] then .ok () else .error .exception
  first : s.blame = s.failures.head?
  cancels : s.failures ≠ [] → s.cancelled = true
  spared : s.parent = .gone → s.resumes = 0

/-! ## The invariant -/

/-- **Who is counted, and where the runner is.** -/
structure Ok (s : Scope κ) : Prop where
  active : s.activeCount = s.children.sum Child.live
  waits : s.waiter = true ↔ s.runner = .joining
  held : s.runner = .joining → s.activeCount ≠ 0
  quiet : s.runner ≠ .body → s.runner ≠ .joining → s.activeCount = 0
  unborn : s.runner = .none ↔ s.parent = .fresh
  handle : s.resumes + (if s.continuation then 1 else 0) = if s.runner = .done then 1 else 0
  back : s.parent = .resumed → s.resumes = 1
  away : s.parent = .suspended → s.resumes = 0
  error : s.firstError = if s.failures = [] then .none else some .exception
  first : s.blame = s.failures.head?
  cancels : s.failures ≠ [] → s.cancelled = true
  sees : ∀ r ∈ s.seen, s.runner = .done ∧ r = if s.failures = [] then .ok () else .error .exception

theorem ok_init : Ok ({} : Scope κ) where
  active := rfl
  waits := by simp
  held := nofun
  quiet _ _ := rfl
  unborn := by simp
  handle := rfl
  back := nofun
  away := nofun
  error := rfl
  first := rfl
  cancels h := absurd rfl h
  sees := nofun

/-- What the count says. -/
theorem Ok.idle_iff [DecidableEq κ] (h : Ok s) : s.Idle ↔ s.activeCount = 0 := by
  rw [h.active]
  refine ⟨fun hidle => ?_, fun hsum c => ?_⟩
  · exact_mod_cast Finset.sum_eq_zero fun c _ => hidle c
  · have hle := Family.le_sum (f := Child.live) rfl s.children c
    omega

end

/-- The whole contract but for the parent that was destroyed. -/
theorem Ok.sound (h : Ok s) (hspared : s.parent = .gone → s.resumes = 0) : Sound s where
  once := by
    have hhandle := h.handle
    split_ifs at hhandle <;> omega
  after hr := by
    have hhandle := h.handle
    have hdone : s.runner = .done := by
      by_contra hc
      rw [if_neg hc] at hhandle
      omega
    exact ⟨hdone, h.idle_iff.mpr (h.quiet (by simp [hdone]) (by simp [hdone]))⟩
  comes hrest := by
    obtain ⟨hidle, hrunner, hcont⟩ := hrest
    have hdone : s.runner = .done := hrunner.resolve_left fun hj => h.held hj (h.idle_iff.mp hidle)
    have hhandle := h.handle
    rw [if_pos hdone, hcont] at hhandle
    simpa using hhandle
  sees r hr := (h.sees r hr).2
  first := h.first
  cancels := h.cancels
  spared := hspared

/-! ## Steps -/

section

omit [DecidableEq κ]

/-- A runner's `try` block is left, while the scope is not over. -/
theorem Ok.leave (h : Ok s) (hdone : s.runner ≠ .done) (who : Option κ) (threw : Bool) : Ok
    (s.leave who threw) := by
  have hseen : s.seen = .none := by
    cases hs : s.seen with
    | none => rfl
    | some r => exact absurd (h.sees r hs).1 hdone
  rw [Scope.leave]
  split_ifs
  · rw [Scope.recordFailure]
    by_cases hf : s.failures = []
    · have herror : s.firstError = .none := by rw [h.error, if_pos hf]
      rw [if_neg (by simp [herror])]
      exact {
        active := h.active, waits := h.waits, held := h.held, quiet := h.quiet, unborn :=
          h.unborn, handle := h.handle,
        back := h.back, away := h.away, error :=
          by simp, first := by simp [hf], cancels := fun _ => rfl,
        sees := fun r hr => absurd (hseen.symm.trans hr) nofun }
    · have herror : s.firstError = some .exception := by rw [h.error, if_neg hf]
      obtain ⟨e, l, hl⟩ := List.exists_cons_of_ne_nil hf
      rw [if_pos (by simp [herror])]
      exact {
        active := h.active, waits := h.waits, held := h.held, quiet := h.quiet, unborn :=
          h.unborn, handle := h.handle,
        back := h.back, away := h.away, error := by simp [herror], first := by simp [h.first, hl],
        cancels := fun _ => h.cancels hf, sees := fun r hr => absurd (hseen.symm.trans hr) nofun }
  · exact h

/-- Before the runner is done the parent's handle is nowhere. -/
theorem Ok.handle_of_ne (h : Ok s) (hne : s.runner ≠ .done) : s.resumes +
    (if s.continuation then 1 else 0) = 0 :=
  h.handle.trans (if_neg hne)

/-- The runner has passed the join. -/
theorem Ok.finish (h : Ok s) (hrunner : s.runner = .body ∨ s.runner = .woken)
    (hcount : s.activeCount = 0) :
    Ok s.finish := by
  have hnot : s.runner ≠ .done := by rcases hrunner with hr | hr <;> simp [hr]
  have hhandle := h.handle_of_ne hnot
  exact {
    active := h.active
    waits := by
      refine iff_of_false (fun hc => ?_) nofun
      have hj := h.waits.mp hc
      rcases hrunner with hr | hr <;> exact absurd (hr.symm.trans hj) nofun
    held := nofun
    quiet := fun _ _ => hcount
    unborn := by
      refine iff_of_false nofun fun hc => ?_
      have hnone := h.unborn.mpr hc
      rcases hrunner with hr | hr <;> exact absurd (hr.symm.trans hnone) nofun
    handle := by
      change s.resumes + 1 = 1
      omega
    back := h.back
    away := h.away
    error := h.error
    first := h.first
    cancels := h.cancels
    sees := fun r hr => ⟨rfl, (h.sees r hr).2⟩ }

theorem Ok.bodyEnd (h : Ok s) (hrunner : s.runner = .body) (threw : Bool) : Ok
    (s.bodyEnd threw) := by
  have hleft := h.leave (by simp [hrunner]) .none threw
  have hbody : (s.leave .none threw).runner = .body := by
    rw [Scope.leave, Scope.recordFailure]
    split_ifs <;> exact hrunner
  rw [Scope.bodyEnd]
  generalize s.leave .none threw = r at hleft hbody
  split_ifs with hcount
  · exact hleft.finish (.inl hbody) hcount
  · have hhandle := hleft.handle_of_ne (by simp [hbody])
    exact {
      active := hleft.active, waits := iff_of_true rfl rfl, held := fun _ => hcount, quiet :=
        fun _ hc => absurd rfl hc,
      unborn := iff_of_false nofun fun hc => absurd (hbody.symm.trans (hleft.unborn.mpr hc)) nofun,
      handle := hhandle, back := hleft.back, away := hleft.away, error := hleft.error, first :=
        hleft.first,
      cancels := hleft.cancels,
      sees := fun r hr => absurd (hbody.symm.trans (hleft.sees r hr).1) nofun }

theorem Ok.resume (h : Ok s) (hcont : s.continuation = true) : Ok s.resume := by
  have hhandle := h.handle
  rw [hcont] at hhandle
  have hdone : s.runner = .done := by
    by_contra hc
    rw [if_neg hc] at hhandle
    simp at hhandle
  rw [if_pos hdone] at hhandle
  have hzero : s.resumes = 0 := by simpa using hhandle
  rw [Scope.resume]
  split_ifs with hp
  · exact {
      active := h.active, waits := h.waits, held := h.held, quiet := h.quiet,
      unborn := iff_of_false (by simp [hdone]) nofun,
      handle := by
        simp [hdone, hzero], back := fun _ => by simp [hzero], away := nofun, error := h.error,
      first := h.first, cancels := h.cancels,
      sees := fun r hr => by
        obtain rfl := Option.some.inj hr
        refine ⟨hdone, ?_⟩
        rw [Scope.asExpected]
        simp only [h.error]
        split_ifs <;> rfl }
  · exact {
      active := h.active, waits := h.waits, held := h.held, quiet := h.quiet, unborn := h.unborn,
      handle := by
        simp [hdone, hzero], back := fun _ => by simp [hzero], away := fun hc => absurd hc hp,
      error := h.error, first := h.first, cancels := h.cancels, sees := h.sees }

theorem Ok.await (h : Ok s) (hp : s.parent = .fresh) : Ok s.await := by
  have hrunner := h.unborn.mpr hp
  have hhandle := h.handle_of_ne (by simp [hrunner])
  exact { h with
    waits := iff_of_false (fun hc => absurd (hrunner.symm.trans (h.waits.mp hc)) nofun) nofun
    held := nofun
    quiet := fun _ _ => h.quiet (by simp [hrunner]) (by simp [hrunner])
    unborn := iff_of_false nofun nofun
    handle := hhandle
    back := nofun
    away := fun _ => by
      change s.resumes = 0
      omega
    sees := fun r hr => absurd (hrunner.symm.trans (h.sees r hr).1) nofun }

theorem Ok.start (h : Ok s) (hrunner : s.runner = .scheduled) : Ok { s with runner := .body } :=
  { h with
    waits := iff_of_false (fun hc => absurd (hrunner.symm.trans (h.waits.mp hc)) nofun) nofun
    held := nofun
    quiet := fun hc => absurd rfl hc
    unborn := iff_of_false nofun fun hc => absurd (hrunner.symm.trans (h.unborn.mpr hc)) nofun
    handle := h.handle_of_ne (by simp [hrunner])
    sees := fun r hr => absurd (hrunner.symm.trans (h.sees r hr).1) nofun }

theorem Ok.destroy (h : Ok s) (hp : s.parent = .suspended) : Ok { s with parent := .gone } :=
  { h with
    unborn := iff_of_false (fun hc => absurd (hp.symm.trans (h.unborn.mp hc)) nofun) nofun
    back := nofun
    away := nofun }

end

theorem Ok.spawn (h : Ok s) (hrunner : s.runner = .body ∨ s.runner = .joining)
    (hc : s.children c = .unborn) :
    Ok (s.spawn c) := by
  have hsum := Family.sum_set (f := Child.live) rfl s.children c .scheduled
  rw [hc] at hsum
  have hactive := h.active
  exact {
    active := by
      change s.activeCount + 1 = ((s.children.set c .scheduled).sum Child.live : ℕ)
      simp only [Child.live] at hsum hactive ⊢
      omega
    waits := h.waits
    held := fun _ => by
      change s.activeCount + 1 ≠ 0
      omega
    quiet := fun h₁ h₂ => absurd hrunner (not_or.mpr ⟨h₁, h₂⟩)
    unborn := h.unborn
    handle := h.handle
    back := h.back
    away := h.away
    error := h.error
    first := h.first
    cancels := h.cancels
    sees := h.sees }

/-- A child that lives keeps the runner from passing the join. -/
theorem Ok.runner_of_live (h : Ok s) (hc : (s.children c).live = 1) : s.runner = .body ∨
    s.runner = .joining := by
  by_contra hne
  obtain ⟨h₁, h₂⟩ := not_or.mp hne
  have hidle := h.idle_iff.mpr (h.quiet h₁ h₂) c
  omega

theorem Ok.startChild (h : Ok s) (hc : s.children c = .scheduled) :
    Ok { s with children := s.children.set c .running } :=
  { h with
    active := by
      rw [h.active]
      refine congrArg _ (Family.sum_set_of_eq rfl ?_).symm
      rw [hc]
      rfl }

theorem Ok.childEnd (h : Ok s) (hc : s.children c = .running) (threw : Bool) : Ok
    (s.childEnd c threw) := by
  have hrunner := h.runner_of_live (c := c) (by rw [hc]; rfl)
  have hleft := h.leave (by rcases hrunner with hr | hr <;> simp [hr]) (some c) threw
  have hsame : (s.leave (some c) threw).children = s.children ∧
    (s.leave (some c) threw).runner = s.runner := by
    rw [Scope.leave, Scope.recordFailure]
    split_ifs <;> exact ⟨rfl, rfl⟩
  rw [Scope.childEnd, ← hsame.1]
  rw [← hsame.1] at hc
  rw [← hsame.2] at hrunner
  generalize s.leave (some c) threw = r at hleft hc hrunner
  have hsum := Family.sum_set (f := Child.live) rfl r.children c .done
  rw [hc] at hsum
  have hactive := hleft.active
  have hcount : r.activeCount - 1 = ((r.children.set c .done).sum Child.live : ℕ) := by
    simp only [Child.live] at hsum hactive ⊢
    omega
  have hhandle := hleft.handle_of_ne (by rcases hrunner with hr | hr <;> simp [hr])
  have hseen (q : Except Error Unit) (hq : r.seen = some q) : False := by
    rcases hrunner with hr | hr <;> exact absurd (hr.symm.trans (hleft.sees q hq).1) nofun
  have hunborn : ¬ r.parent = .fresh := fun hc => by
    rcases hrunner with hr | hr <;> exact absurd (hr.symm.trans (hleft.unborn.mpr hc)) nofun
  rw [Scope.onChildDone]
  by_cases hlast : r.activeCount - 1 = 0 ∧ r.waiter = true
  · -- the last child behind a joining runner
    rw [if_pos hlast]
    exact {
      active := hcount, waits := iff_of_false nofun nofun, held := nofun, quiet :=
        fun _ _ => hlast.1,
      unborn := iff_of_false nofun hunborn, handle := hhandle, back := hleft.back, away :=
        hleft.away,
      error := hleft.error, first := hleft.first, cancels := hleft.cancels, sees :=
        fun q hq => (hseen q hq).elim }
  · rw [if_neg hlast]
    exact {
      active := hcount, waits := hleft.waits,
      held := fun hj hz => hlast ⟨hz, hleft.waits.mpr hj⟩,
      quiet := fun h₁ h₂ => absurd hrunner (not_or.mpr ⟨h₁, h₂⟩),
      unborn := hleft.unborn, handle := hleft.handle, back := hleft.back, away := hleft.away,
      error := hleft.error, first := hleft.first, cancels := hleft.cancels, sees :=
        fun q hq => (hseen q hq).elim }

/-- Whoever spawns keeps the runner from passing the join. -/
theorem Ok.runner_of_atWork (h : Ok s) {who : Option κ} (hwork : s.AtWork who) :
    s.runner = .body ∨ s.runner = .joining := by
  cases who with
  | none => exact .inl hwork
  | some c =>
    refine h.runner_of_live (c := c) ?_
    rw [show s.children c = .running from hwork]
    rfl

/-- **One step** keeps the count right, and a parent that was destroyed stays so. -/
theorem Ok.step {a : Act κ} (h : Ok s) (hst : step s a = some t) :
    Ok t ∧ (t.parent = .gone ↔ s.parent = .gone ∨ a = .destroy) := by
  cases a with
  | await =>
    obtain ⟨hp, rfl⟩ : s.parent = .fresh ∧ s.await = t := by simpa [TaskScope.step] using hst
    exact ⟨h.await hp, by simp [Scope.await, hp]⟩
  | start =>
    obtain ⟨hr, rfl⟩ : s.runner = .scheduled ∧ _ = t := by simpa [TaskScope.step] using hst
    exact ⟨h.start hr, by simp⟩
  | spawn who c =>
    obtain ⟨⟨hwork, hc⟩, rfl⟩ : (s.AtWork who ∧ s.children c = .unborn) ∧ s.spawn c = t := by
      simpa [TaskScope.step] using hst
    exact ⟨h.spawn (h.runner_of_atWork hwork) hc, by simp [Scope.spawn]⟩
  | startChild c =>
    obtain ⟨hc, rfl⟩ : s.children c = .scheduled ∧ _ = t := by simpa [TaskScope.step] using hst
    exact ⟨h.startChild hc, by simp⟩
  | childEnd c threw =>
    obtain ⟨hc, rfl⟩ : s.children c = .running ∧ s.childEnd c threw = t :=
      by simpa [TaskScope.step] using hst
    refine ⟨h.childEnd hc threw, ?_⟩
    simp only [Scope.childEnd, Scope.onChildDone, Scope.leave, Scope.recordFailure]
    split_ifs <;> simp
  | bodyEnd threw =>
    obtain ⟨hr, rfl⟩ : s.runner = .body ∧ s.bodyEnd threw = t := by simpa [TaskScope.step] using hst
    refine ⟨h.bodyEnd hr threw, ?_⟩
    simp only [Scope.bodyEnd, Scope.finish, Scope.leave, Scope.recordFailure]
    split_ifs <;> simp
  | join =>
    obtain ⟨hr, rfl⟩ : s.runner = .woken ∧ s.finish = t := by simpa [TaskScope.step] using hst
    exact ⟨h.finish (.inr hr) (h.quiet (by simp [hr]) (by simp [hr])), by simp [Scope.finish]⟩
  | resume =>
    obtain ⟨hc, rfl⟩ : s.continuation = true ∧ s.resume = t := by simpa [TaskScope.step] using hst
    refine ⟨h.resume hc, ?_⟩
    rw [Scope.resume]
    split_ifs with hp
    · simp only [] at hp
      simp [hp]
    · simp
  | destroy =>
    obtain ⟨hp, rfl⟩ : s.parent = .suspended ∧ _ = t := by simpa [TaskScope.step] using hst
    exact ⟨h.destroy hp, by simp⟩
  | cancel =>
    obtain rfl := Option.some.inj hst
    exact ⟨{ h with cancels := fun _ => rfl }, by simp⟩

/-! ## Runs -/

theorem Ok.run {ok : Scope κ → Act κ → Prop} {as : List (Act κ)} (h : Ok s)
    (hrun : Run TaskScope.step ok s as t) :
    Ok t ∧ (s.parent = .gone → t.parent = .gone) := by
  refine Run.invariant (I := fun t => Ok t ∧ (s.parent = .gone → t.parent = .gone)) ⟨h, id⟩ ?_ hrun
  rintro r a t ⟨hr, hgone⟩ - hst
  obtain ⟨ht, hiff⟩ := hr.step hst
  exact ⟨ht, fun hs => hiff.mpr (.inl (hgone hs))⟩

/-- The awaiting coroutine is not destroyed while it is suspended. -/
def Staying (_ : Scope κ) (a : Act κ) : Prop := a ≠ .destroy

instance (s : Scope κ) (a : Act κ) : Decidable (Staying s a) := inferInstanceAs (Decidable (_ ≠ _))

/-- **A scope keeps its contract** as long as the awaiting coroutine is there: for every body, every
tree of children, every order and every pattern of exceptions.  If it is destroyed, the contract is
broken by the time the scope comes to rest: the handle has been resumed. -/
theorem sound_of_staying {as : List (Act κ)} (h : Run step Staying ({} : Scope κ) as s) :
    Sound s ∧ ∀ a t, step s a = some t → ¬ Staying s a →
      ∀ bs u, Run step (fun _ _ => True) t bs u → u.AtRest → ¬ Sound u := by
  obtain ⟨hok, hstays⟩ : Ok s ∧ s.parent ≠ .gone := by
    refine Run.invariant (I := fun s => Ok s ∧ s.parent ≠ .gone) ⟨ok_init, nofun⟩ ?_ h
    rintro s a t ⟨hs, hstays⟩ hstay hst
    obtain ⟨ht, hiff⟩ := hs.step hst
    exact ⟨ht, fun hgone => (hiff.mp hgone).elim hstays hstay⟩
  refine ⟨hok.sound fun hc => absurd hc hstays, fun a t hst hleaves bs u hrun hrest hsound => ?_⟩
  obtain ⟨ht, hiff⟩ := hok.step hst
  have hgone : u.parent = .gone := (ht.run hrun).2 (hiff.mpr (.inr (not_not.mp hleaves)))
  have hzero := hsound.spared hgone
  have hone := hsound.comes hrest
  omega

/-- A body that spawns two children and ends first; one child spawns a third and throws; then the
join. -/
def familyWord : List (Act ℕ) :=
  [.await, .start, .spawn none 0, .spawn none 1, .startChild 0, .bodyEnd false, .spawn (some 0) 2,
    .childEnd 0 true,
    .startChild 2, .startChild 1, .childEnd 1 true, .childEnd 2 false, .join, .resume]

theorem sound_of_staying_family : ∃ s : Scope ℕ, Run step Staying {} familyWord s ∧ Sound s ∧
    s.resumes = 1 ∧ s.blame = some (some 0) ∧ s.seen = some (.error .exception) :=
  Run.exists_and_of_mem (fun h => (sound_of_staying h).1) (by decide +kernel)

/-- **A dead handle is resumed.**  The awaiting coroutine is destroyed while the body runs; the
runner schedules its handle all the same. -/
theorem destroyed_parent_resumed : ∃ s : Scope ℕ,
    Run step (fun _ _ => True) {} [.await, .start, .destroy, .bodyEnd false, .resume] s ∧
      s.parent = .gone ∧
      s.resumes = 1 :=
  Run.exists_of_mem (by decide +kernel)

end Cornet.TaskScope
