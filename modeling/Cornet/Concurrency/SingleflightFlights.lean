import Cornet.Concurrency.Singleflight

/-!
# Concurrency/SingleflightFlights — who leads, who waits, and who holds a flight

    waiterN f  =  #{ callers that wait for f, or were woken by it }
    freed f    ⟺   done f  ∧  waiterN f = 0

A flight is in the map until its leader ends, so a key has one leader at a time; the chain has
exactly the callers that wait, so each is scheduled once.  A caller joins, leaves or lands: three
kinds of steps, and one lemma for each about what it does to the flight (`Ok.follow` and `Ok.lead`,
`Ok.leave`, `Ok.land`).
-/

namespace Cornet.Singleflight

open List Family

variable {κ φ ω ρ : Type*} [DecidableEq κ] [DecidableEq φ] [DecidableEq ω] {s t : Group κ φ ω ρ}
  {f : φ} {w : ω}

/-! ## What a flight promises -/

/-- A caller holds a reference to a flight. -/
def Role.holds (f : φ) : Role φ → ℕ
  | .waiting g | .woken g => if g = f then 1 else 0
  | _ => 0

@[simp] theorem Role.holds_waiting (f g : φ) : (Role.waiting g).holds f = if g = f then 1 else 0 :=
  rfl

@[simp] theorem Role.holds_woken (f g : φ) : (Role.woken g).holds f = if g = f then 1 else 0 := rfl

@[simp] theorem Role.holds_fresh (f : φ) : Role.fresh.holds f = 0 := rfl

@[simp] theorem Role.holds_leading (f g : φ) : (Role.leading g).holds f = 0 := rfl

@[simp] theorem Role.holds_over (f : φ) : Role.over.holds f = 0 := rfl

section

omit [DecidableEq κ] [DecidableEq φ] [DecidableEq ω]

/-- A follower that has read has read what the leader ended with. -/
def Shared (s : Group κ φ ω ρ) : Prop :=
  ∀ w f r, (s.callers w).joined = some f → (s.callers w).got = some r →
    (s.flights f).outcome = some r

/-- **The contract**: a key has one leader at a time; nobody is scheduled twice; a follower gets
what the leader of its flight ended with; the map knows no flight that has landed; and a flight is
freed once, when it has landed and nobody holds it. -/
structure Sound (s : Group κ φ ω ρ) : Prop where
  alone : ∀ w w' f f', (s.callers w).role = .leading f → (s.callers w').role = .leading f' →
    (s.flights f).key = (s.flights f').key → w = w'
  once : s.ready.Nodup
  shared : Shared s
  renewed : ∀ k f, s.inFlight k = some f → (s.flights f).key = some k ∧ (s.flights f).done = false
  freed : ∀ f, (s.flights f).frees = 1 ∧ (s.flights f).done = true ∧
    (∀ w, (s.callers w).role ≠ .waiting f ∧
      (s.callers w).role ≠ .woken f) ∨ (s.flights f).frees = 0 ∧ ((s.flights f).done = false ∨
    ∃ w, (s.callers w).role = .waiting f ∨ (s.callers w).role = .woken f)

/-- What a follower will read is what the leader left. -/
def Flight.Told (e : Flight κ ω ρ) : Prop :=
  match e.outcome with
  | none => e.done = false ∧ e.result = none ∧ e.err = {}
  | some (.ok v) => e.done = true ∧ e.result = v ∧ e.err = {}
  | some (.error err) => e.done = true ∧ e.result = none ∧ e.err = err

end

/-- The leader of the flight that a follower reads has not ended with an error of code zero. -/
def Coded (s : Group κ φ ω ρ) : Act κ φ ω ρ → Prop
  | .resume w =>
    match (s.callers w).role with
    | .woken f =>
      match (s.flights f).outcome with
      | some (.error e) => e.code ≠ 0
      | _ => True
    | _ => True
  | _ => True

instance (s : Group κ φ ω ρ) : ∀ a, Decidable (Coded s a)
  | .resume w => by
    simp only [Coded]
    split
    · split <;> infer_instance
    · infer_instance
  | .run .. | .complete .. | .kill _ | .drop _ => isTrue trivial

/-! ## The invariant -/

section

omit [DecidableEq κ] [DecidableEq φ] [DecidableEq ω]

/-- What holds of each flight. -/
structure Flight.Ok (e : Flight κ ω ρ) : Prop where
  nodup : e.waiters.Nodup
  shut : e.done = true → e.waiters = []
  blank : e.key = none → e = default
  freed : e.frees = if e.done = true ∧ e.waiterN = 0 then 1 else 0
  told : e.Told

/-- What holds of each caller. -/
structure Caller.Ok (e : Caller φ ρ) : Prop where
  joined : ∀ f, e.role = .waiting f ∨ e.role = .woken f → e.joined = some f ∧ e.got = none
  aloof : ∀ f, e.role = .leading f ∨ e.role = .fresh → e.joined = none

end

/-- **Who leads, who waits, who was woken.** -/
structure Ok (s : Group κ φ ω ρ) : Prop where
  flight : ∀ f, (s.flights f).Ok
  caller : ∀ w, (s.callers w).Ok
  leads : ∀ w f, (s.callers w).role = .leading f → ∃ k, (s.flights f).key = some k ∧
    s.inFlight k = some f
  flying : ∀ k f, s.inFlight k = some f → (s.flights f).key = some k ∧ (s.flights f).done = false
  sole : ∀ w w' f, (s.callers w).role = .leading f → (s.callers w').role = .leading f → w = w'
  waits : ∀ w f, (s.callers w).role = .waiting f ↔ w ∈ (s.flights f).waiters
  woke : ∀ w f, (s.callers w).role = .woken f → (s.flights f).done = true
  count : ∀ f, (s.flights f).waiterN = s.callers.sum fun e => e.role.holds f
  once : s.ready.Nodup
  called : ∀ w ∈ s.ready, (s.callers w).role = .over ∨ ∃ f, (s.callers w).role = .woken f

omit [DecidableEq κ] [DecidableEq ω] in
theorem ok_init : Ok ({} : Group κ φ ω ρ) where
  flight _ := ⟨nodup_nil, fun _ => rfl, fun _ => rfl, rfl, rfl, rfl, rfl⟩
  caller _ := ⟨nofun, fun _ _ => rfl⟩
  leads _ _ h := by cases h
  flying _ _ h := by cases h
  sole _ _ _ h := by cases h
  waits w f := iff_of_false nofun (not_mem_nil (a := w))
  woke _ _ h := by cases h
  count _ := rfl
  once := nodup_nil
  called _ h := absurd h not_mem_nil

/-- The count of a flight is zero exactly when nobody holds it. -/
theorem sum_holds_eq_zero (F : Family ω (Caller φ ρ)) (f : φ) :
    (F.sum fun e => e.role.holds f) = 0 ↔ ∀ w, (F w).role ≠ .waiting f ∧ (F w).role ≠ .woken f := by
  have hiff (e : Caller φ ρ) : e.role.holds f = 0 ↔ e.role ≠ .waiting f ∧ e.role ≠ .woken f := by
    cases hr : e.role <;> simp [Role.holds]
  refine ⟨fun hsum w => ?_, fun hall => ?_⟩
  · have hle := le_sum (f := fun e : Caller φ ρ => e.role.holds f) rfl F w
    exact (hiff _).mp (Nat.le_zero.mp (hsum ▸ hle))
  · exact Finset.sum_eq_zero fun w _ => (hiff _).mpr (hall w)

omit [DecidableEq κ] in
/-- The invariant has the whole contract but what a follower gets. -/
theorem Ok.sound (h : Ok s) (hshared : Shared s) : Sound s where
  alone w w' f f' hw hw' hkey := by
    obtain ⟨k, hk, hfly⟩ := h.leads w f hw
    obtain ⟨k', hk', hfly'⟩ := h.leads w' f' hw'
    obtain rfl : k = k' := Option.some.inj ((hk.symm.trans hkey).trans hk')
    obtain rfl : f = f' := Option.some.inj (hfly.symm.trans hfly')
    exact h.sole w w' f hw hw'
  once := h.once
  shared := hshared
  renewed := h.flying
  freed f := by
    have hzero := sum_holds_eq_zero s.callers f
    rw [← h.count] at hzero
    rw [(h.flight f).freed]
    by_cases hc : (s.flights f).done = true ∧ (s.flights f).waiterN = 0
    · exact .inl ⟨if_pos hc, hc.1, hzero.mp hc.2⟩
    · refine .inr ⟨if_neg hc, ?_⟩
      cases hd : (s.flights f).done with
      | false => exact .inl rfl
      | true =>
        have hne := hzero.not.mp fun hz => hc ⟨hd, hz⟩
        push Not at hne
        obtain ⟨w, hw⟩ := hne
        exact .inr ⟨w, or_iff_not_imp_left.mpr hw⟩

/-! ## Joining -/

omit [DecidableEq κ] [DecidableEq φ] [DecidableEq ω] in
/-- Nothing is asked of a caller that has left. -/
theorem Caller.ok_over {e : Caller φ ρ} (h : e.role = .over) : e.Ok :=
  ⟨by simp [h], by simp [h]⟩

omit [DecidableEq κ] in
theorem Ok.follow {k : κ} (h : Ok s) (hrole : (s.callers w).role = .fresh)
    (hfly : s.inFlight k = some f) :
    Ok (s.follow w f) := by
  obtain ⟨hkey, hdone⟩ := h.flying k f hfly
  have hnew : w ∉ (s.flights f).waiters := fun hmem => by
    have := (h.waits w f).mpr hmem
    rw [hrole] at this
    cases this
  have hready : w ∉ s.ready := fun hmem => by
    rcases h.called w hmem with hw | ⟨g, hw⟩ <;> rw [hrole] at hw <;> cases hw
  -- what a flight says of itself
  have hsame (g : φ) : ((s.follow w f).flights g).key = (s.flights g).key
      ∧ ((s.follow w f).flights g).done = (s.flights g).done := by
    simp only [Group.follow, Group.putFlight, Group.putCaller, set_apply]
    split_ifs with hg <;> simp [*]
  have hcaller (u : ω) : (s.follow w f).callers u
      = if u = w then { role := .waiting f, joined := some f } else s.callers u := set_apply ..
  constructor
  case flight =>
    refine forall_set (fun _ => Flight.Ok) h.flight ?_
    have he := h.flight f
    refine ⟨nodup_cons.mpr ⟨hnew, he.nodup⟩, fun hd => ?_, fun hk => ?_, ?_, ?_⟩
    · exact absurd hd (by simp [hdone])
    · exact absurd hk (by simp [hkey])
    · have := he.freed
      simp only [hdone] at this ⊢
      simpa using this
    · exact he.told
  case caller =>
    refine forall_set (fun _ => Caller.Ok) h.caller ⟨fun g hg => ?_, fun g hg => ?_⟩
    · rcases hg with hg | hg <;> cases hg
      exact ⟨rfl, rfl⟩
    · rcases hg with hg | hg <;> cases hg
  case leads =>
    intro u g hu
    rw [hcaller] at hu
    rw [(hsame g).1]
    split_ifs at hu with hw
    exact h.leads u g hu
  case flying =>
    intro k g hg
    rw [(hsame g).1, (hsame g).2]
    exact h.flying k g hg
  case sole =>
    intro u u' g hu hu'
    rw [hcaller] at hu hu'
    split_ifs at hu hu'
    exact h.sole u u' g hu hu'
  case waits =>
    intro u g
    rw [hcaller]
    simp only [Group.follow, Group.putFlight, Group.putCaller, set_apply]
    have hold := h.waits u g
    split_ifs with hu hg hg <;> grind
  case woke =>
    intro u g hu
    rw [hcaller] at hu
    rw [(hsame g).2]
    split_ifs at hu
    exact h.woke u g hu
  case count =>
    intro g
    have hsum := sum_set (f := fun e : Caller φ ρ => e.role.holds g) rfl s.callers w
      { role := .waiting f, joined := some f }
    have hold := h.count g
    simp only [hrole, Role.holds_fresh, Role.holds_waiting] at hsum
    simp only [Group.follow, Group.putFlight, Group.putCaller, set_apply]
    split_ifs with hg <;> grind
  case once => exact h.once
  case called =>
    intro u hu
    have hne : u ≠ w := fun heq => hready (heq ▸ hu)
    rw [hcaller, if_neg hne]
    exact h.called u hu

theorem Ok.lead {k : κ} (h : Ok s) (hrole : (s.callers w).role = .fresh)
    (hfly : s.inFlight k = none)
    (hfresh : (s.flights f).key = none) : Ok (s.lead w k f) := by
  have hblank : s.flights f = default := (h.flight f).blank hfresh
  have hflight (g : φ) : (s.lead w k f).flights g = if g = f then { key := some k }
    else s.flights g :=
    set_apply ..
  have hcaller (u : ω) : (s.lead w k f).callers u = if u = w then { role := .leading f }
    else s.callers u :=
    set_apply ..
  have hmap (j : κ) : (s.lead w k f).inFlight j = if j = k then some f else s.inFlight j :=
    set_apply ..
  -- a new flight is nobody's
  have hunled (u : ω) : (s.callers u).role ≠ .leading f := fun hu => by
    obtain ⟨j, hj, _⟩ := h.leads u f hu
    simp [hfresh] at hj
  have hunflown (j : κ) : s.inFlight j ≠ some f := fun hj => by
    simpa [hfresh] using (h.flying j f hj).1
  have hwait (u : ω) : (s.callers u).role ≠ .waiting f := fun hu => by
    have hmem := (h.waits u f).mp hu
    rw [hblank] at hmem
    cases hmem
  have hwoke (u : ω) : (s.callers u).role ≠ .woken f := fun hu => by
    have hdone := h.woke u f hu
    rw [hblank] at hdone
    cases hdone
  constructor
  case flight =>
    refine forall_set (fun _ => Flight.Ok) h.flight ?_
    exact ⟨nodup_nil, fun _ => rfl, nofun, rfl, rfl, rfl, rfl⟩
  case caller => exact forall_set (fun _ => Caller.Ok) h.caller ⟨nofun, fun _ _ => rfl⟩
  case leads =>
    intro u g hu
    rw [hcaller] at hu
    rw [hflight]
    by_cases huw : u = w
    · rw [if_pos huw] at hu
      cases hu
      exact ⟨k, by simp, by simp [hmap]⟩
    · rw [if_neg huw] at hu
      obtain ⟨j, hj, hmem⟩ := h.leads u g hu
      have hne : g ≠ f := fun hg => hunled u (hg ▸ hu)
      have hjk : j ≠ k := fun hjk => by simp [← hjk, hmem] at hfly
      rw [if_neg hne]
      exact ⟨j, hj, by rwa [hmap, if_neg hjk]⟩
  case flying =>
    intro j g hj
    rw [hmap] at hj
    rw [hflight]
    by_cases hjk : j = k
    · rw [if_pos hjk] at hj
      cases hj
      simp [hjk]
    · rw [if_neg hjk] at hj
      have hne : g ≠ f := fun hg => hunflown j (hg ▸ hj)
      rw [if_neg hne]
      exact h.flying j g hj
  case sole =>
    intro u u' g hu hu'
    rw [hcaller] at hu hu'
    split_ifs at hu hu' with h1 h2 h3
    · exact h1.trans h2.symm
    · cases hu
      exact absurd hu' (hunled u')
    · cases hu'
      exact absurd hu (hunled u)
    · exact h.sole u u' g hu hu'
  case waits =>
    intro u g
    rw [hcaller, hflight]
    have hold := h.waits u g
    have := hwait u
    split_ifs with hu hg hg <;> grind
  case woke =>
    intro u g hu
    rw [hcaller] at hu
    split_ifs at hu
    have hne : g ≠ f := fun hg => hwoke u (hg ▸ hu)
    rw [hflight, if_neg hne]
    exact h.woke u g hu
  case count =>
    intro g
    have hsum : (s.lead w k f).callers.sum (fun e => e.role.holds g) = s.callers.sum fun e =>
      e.role.holds g :=
      sum_set_of_eq rfl (show 0 = (s.callers w).role.holds g by rw [hrole, Role.holds_fresh])
    rw [hsum, ← h.count, hflight]
    split_ifs with hg
    · rw [hg, hblank]
      rfl
    · rfl
  case once => exact h.once
  case called =>
    intro u hu
    have hne : u ≠ w := fun heq => by
      rcases h.called u hu with hw | ⟨g, hw⟩ <;> rw [heq, hrole] at hw <;> cases hw
    rw [hcaller, if_neg hne]
    exact h.called u hu

/-! ## Leaving -/

section

omit [DecidableEq κ] [DecidableEq φ]

/-- A flight without one of its followers. -/
def Flight.leave (e : Flight κ ω ρ) (w : ω) : Flight κ ω ρ :=
  { e with
    waiters := e.waiters.erase w
    waiterN := e.waiterN - 1
    frees := if e.waiterN - 1 = 0 ∧ e.done then e.frees + 1 else e.frees }

theorem Flight.Ok.leave {e : Flight κ ω ρ} (h : e.Ok) (hpos : 1 ≤ e.waiterN)
    (w : ω) : (e.leave w).Ok where
  nodup := h.nodup.erase w
  shut hdone := by
    show e.waiters.erase w = []
    rw [h.shut hdone]
    rfl
  blank hkey := by
    have hzero : e.waiterN = 0 := by
      rw [h.blank hkey]
      rfl
    omega
  freed := by
    have hfrees := h.freed
    simp only [show ¬ e.waiterN = 0 by omega, and_false, if_false] at hfrees
    simp only [Flight.leave, hfrees, and_comm, zero_add]
  told := h.told

end

omit [DecidableEq κ] in
/-- A follower leaves its flight: it has read the result, or its frame is destroyed. -/
theorem Ok.leave (h : Ok s) (hrole : (s.callers w).role = .waiting f ∨
    (s.callers w).role = .woken f)
    {e : Caller φ ρ} (hover : e.role = .over) (hready : t.ready = s.ready)
      (hmap : t.inFlight = s.inFlight)
    (hcaller : t.callers = s.callers.set w e)
      (hflight : t.flights = s.flights.set f ((s.flights f).leave w)) :
    Ok t := by
  have hsame (j : φ) : (t.flights j).key = (s.flights j).key ∧
    (t.flights j).done = (s.flights j).done := by
    rw [hflight, set_apply]
    split_ifs with hj
    · exact hj ▸ ⟨rfl, rfl⟩
    · exact ⟨rfl, rfl⟩
  have hpos : 1 ≤ (s.flights f).waiterN := by
    rw [h.count]
    refine le_trans ?_ (le_sum (f := fun e : Caller φ ρ => e.role.holds f) rfl s.callers w)
    rcases hrole with hr | hr <;> simp [hr]
  -- whoever is not over is as before
  have hback (u : ω) (r : Role φ) (hr : r ≠ .over)
    (hu : (t.callers u).role = r) : (s.callers u).role = r := by
    rw [hcaller, set_apply] at hu
    split_ifs at hu
    · exact absurd (hu.symm.trans hover) hr
    · exact hu
  constructor
  case flight =>
    exact hflight ▸ forall_set (fun _ => Flight.Ok) h.flight ((h.flight f).leave hpos w)
  case caller => exact hcaller ▸ forall_set (fun _ => Caller.Ok) h.caller (Caller.ok_over hover)
  case leads =>
    intro u j hu
    rw [(hsame j).1, hmap]
    exact h.leads u j (hback u _ nofun hu)
  case flying =>
    intro k j hj
    rw [(hsame j).1, (hsame j).2]
    exact h.flying k j (hmap ▸ hj)
  case sole =>
    intro u u' j hu hu'
    exact h.sole u u' j (hback u _ nofun hu) (hback u' _ nofun hu')
  case waits =>
    intro u j
    have hold := h.waits u j
    have hnd := (h.flight f).nodup
    rw [hcaller, hflight, set_apply, set_apply]
    by_cases hu : u = w <;> by_cases hj : j = f
    · subst hu hj
      rw [if_pos rfl, if_pos rfl, hover]
      exact iff_of_false nofun hnd.not_mem_erase
    · subst hu
      rw [if_pos rfl, if_neg hj, hover, ← hold]
      refine iff_of_false nofun fun hw => hj ?_
      rcases hrole with hr | hr <;> rw [hr] at hw <;> cases hw
      rfl
    · subst hj
      rw [if_neg hu, if_pos rfl, hold]
      exact (mem_erase_of_ne hu).symm
    · rw [if_neg hu, if_neg hj]
      exact hold
  case woke =>
    intro u j hu
    rw [(hsame j).2]
    exact h.woke u j (hback u _ nofun hu)
  case count =>
    intro j
    have hsum := sum_set (f := fun e : Caller φ ρ => e.role.holds j) rfl s.callers w e
    have hwas : (s.callers w).role.holds j = if f = j then 1 else 0 :=
      by rcases hrole with hr | hr <;> simp [hr]
    simp only [hover, Role.holds_over, hwas] at hsum
    have hold := h.count j
    rw [hcaller, hflight, set_apply]
    by_cases hj : j = f
    · subst hj
      rw [if_pos rfl] at hsum ⊢
      show (s.flights j).waiterN - 1 = _
      omega
    · rw [if_neg (Ne.symm hj)] at hsum
      rw [if_neg hj]
      omega
  case once => exact hready ▸ h.once
  case called =>
    intro u hu
    rw [hcaller, set_apply]
    split_ifs
    · exact .inl hover
    · exact h.called u (hready ▸ hu)

omit [DecidableEq κ] in
theorem Ok.resume (h : Ok s) (hrole : (s.callers w).role = .woken f) : Ok (s.resume w f) := by
  have hnil : (s.flights f).waiters = [] := (h.flight f).shut (h.woke w f hrole)
  have hleave : (s.resume w f).flights = s.flights.set f ((s.flights f).leave w) := by
    simp only [Flight.leave, hnil, erase_nil]
    simp only [Group.resume, Group.releaseWaiter, Group.putFlight, Group.putCaller, hnil]
    rfl
  exact h.leave (.inr hrole) rfl rfl rfl rfl hleave

omit [DecidableEq κ] in
theorem Ok.drop (h : Ok s) (hrole : (s.callers w).role = .waiting f ∨
    (s.callers w).role = .woken f) :
    Ok (s.drop w f) := by
  have hleave : (s.drop w f).flights = s.flights.set f ((s.flights f).leave w) := by
    simp only [Group.drop, Group.releaseWaiter, Group.putFlight, Group.putCaller, set_self,
      Family.set_set]
    rfl
  exact h.leave hrole rfl rfl rfl rfl hleave

/-! ## Landing -/

section

omit [DecidableEq κ] [DecidableEq φ] in
theorem wake_callers (l : List ω) (s : Group κ φ ω ρ)
    (u : ω) : (l.foldl (Group.wakeOne f) s).callers u
    = if u ∈ l then { s.callers u with role := .woken f } else s.callers u := by
  induction l generalizing s with
  | nil => rfl
  | cons w l ih =>
    rw [foldl_cons, ih]
    simp only [Group.wakeOne, Group.putCaller, set_apply, mem_cons]
    by_cases huw : u = w
    · subst huw
      simp
    · simp [huw]

omit [DecidableEq κ] [DecidableEq φ] in
theorem wake_ready (l : List ω) (s : Group κ φ ω ρ) : (l.foldl (Group.wakeOne f)
    s).ready = s.ready ++ l := by
  induction l generalizing s with
  | nil => exact (append_nil _).symm
  | cons w l ih => rw [foldl_cons, ih, Group.wakeOne, append_assoc, singleton_append]

omit [DecidableEq κ] [DecidableEq φ] in
theorem wake_flights (l : List ω) (s : Group κ φ ω ρ) :
    (l.foldl (Group.wakeOne f) s).flights = s.flights ∧
      (l.foldl (Group.wakeOne f) s).inFlight = s.inFlight := by
  induction l generalizing s with
  | nil => exact ⟨rfl, rfl⟩
  | cons w l ih => exact ih _

omit [DecidableEq κ] in
/-- Waking a waiter keeps its reference. -/
theorem wake_sum (l : List ω) (s : Group κ φ ω ρ) (g : φ)
    (h : ∀ u ∈ l, (s.callers u).role = .waiting f ∨ (s.callers u).role = .woken f) :
    (l.foldl (Group.wakeOne f) s).callers.sum (fun e => e.role.holds g) = s.callers.sum fun e =>
      e.role.holds g := by
  induction l generalizing s with
  | nil => rfl
  | cons w l ih =>
    have hw : (Role.woken f).holds g = (s.callers w).role.holds g := by
      rcases h w mem_cons_self with hr | hr
      · rw [hr, Role.holds_waiting, Role.holds_woken]
      · rw [hr]
    have hone : (s.wakeOne f w).callers.sum (fun e => e.role.holds g) = s.callers.sum fun e =>
      e.role.holds g :=
      sum_set_of_eq rfl hw
    rw [foldl_cons, ih _ fun u hu => ?_, hone]
    simp only [Group.wakeOne, Group.putCaller, set_apply]
    split_ifs
    · exact .inr rfl
    · exact h u (mem_cons_of_mem w hu)

end

section

omit [DecidableEq κ] [DecidableEq φ] [DecidableEq ω]

/-- A flight whose leader has ended. -/
def Flight.land (e : Flight κ ω ρ) (o : Result ρ) : Flight κ ω ρ :=
  { (match o with
    | .ok v => { e with result := v, outcome := some o }
    | .error err => { e with err := err, outcome := some o }) with
    done := true
    waiters := []
    frees := if e.waiterN = 0 then e.frees + 1 else e.frees }

theorem Flight.land_key (e : Flight κ ω ρ) (o : Result ρ) : (e.land o).key = e.key :=
  by cases o <;> rfl

theorem Flight.land_waiterN (e : Flight κ ω ρ) (o : Result ρ) : (e.land o).waiterN = e.waiterN := by
  cases o <;> rfl

theorem Flight.Ok.land {e : Flight κ ω ρ} (h : e.Ok) (hkey : e.key ≠ none) (hdone : e.done = false)
    (o : Result ρ) : (e.land o).Ok where
  nodup := nodup_nil
  shut _ := rfl
  blank hk := absurd (e.land_key o ▸ hk) hkey
  freed := by
    have hfrees : e.frees = 0 := by
      rw [h.freed, hdone, if_neg (by simp)]
    rw [e.land_waiterN]
    simp only [Flight.land, hfrees, true_and, zero_add]
  told := by
    have htold := h.told
    unfold Flight.Told at htold
    split at htold
    · cases o with
      | ok v => exact ⟨rfl, rfl, htold.2.2⟩
      | error err => exact ⟨rfl, htold.2.1, rfl⟩
    · exact absurd htold.1 (by simp [hdone])
    · exact absurd htold.1 (by simp [hdone])

end

/-- The leader ends, and so does the flight. -/
theorem Ok.land {k : κ} (h : Ok s) (hrole : (s.callers w).role = .leading f)
    (hkey : (s.flights f).key = some k)
    {e : Caller φ ρ} {o : Result ρ} (hover : e.role = .over)
      (hmap : t.inFlight = s.inFlight.set k none)
    (hflight : t.flights = s.flights.set f ((s.flights f).land o))
    (hready : t.ready = s.ready ++ (s.flights f).waiters)
    (hcaller : ∀ u, t.callers u = if u = w then e else if u ∈ (s.flights f).waiters then
      { s.callers u with role := .woken f } else s.callers u)
    (hsum : ∀ g, t.callers.sum (fun e => e.role.holds g) = s.callers.sum fun e =>
      e.role.holds g) : Ok t := by
  obtain ⟨k', hkey', hfly⟩ := h.leads w f hrole
  obtain rfl : k = k' := Option.some.inj (hkey.symm.trans hkey')
  have hdone := (h.flying k f hfly).2
  have hkeys (j : φ) : (t.flights j).key = (s.flights j).key := by
    rw [hflight, set_apply]
    split_ifs with hj
    · rw [Flight.land_key, hj]
    · rfl
  -- who leads was leading, and another flight
  have hlead (u : ω) (j : φ) (hu : (t.callers u).role = .leading j) :
      (s.callers u).role = .leading j ∧ j ≠ f := by
    rw [hcaller] at hu
    split_ifs at hu with huw hmem
    · cases hover.symm.trans hu
    · refine ⟨hu, fun hj => huw ?_⟩
      exact h.sole u w f (hj ▸ hu) hrole
  have hfar {j : φ} (hj : j ≠ f) : t.flights j = s.flights j := by rw [hflight, set_of_ne _ _ hj]
  constructor
  case flight =>
    exact hflight ▸ forall_set (fun _ => Flight.Ok) h.flight
      ((h.flight f).land (by simp [hkey]) hdone o)
  case caller =>
    intro u
    rw [hcaller]
    split_ifs with huw hmem
    · exact Caller.ok_over hover
    · have hu := (h.caller u).joined f (.inl ((h.waits u f).mpr hmem))
      refine ⟨fun j hj => ?_, fun j hj => ?_⟩
      · rcases hj with hj | hj <;> cases hj
        exact hu
      · rcases hj with hj | hj <;> cases hj
    · exact h.caller u
  case leads =>
    intro u j hu
    obtain ⟨hu, hj⟩ := hlead u j hu
    obtain ⟨i, hi, hmem⟩ := h.leads u j hu
    have hik : i ≠ k := fun hik => by
      rw [hik, hfly] at hmem
      exact hj (Option.some.inj hmem).symm
    exact ⟨i, (hkeys j).trans hi, by rw [hmap, set_of_ne _ _ hik, hmem]⟩
  case flying =>
    intro i j hj
    rw [hmap, set_apply] at hj
    split_ifs at hj with hik
    have hold := h.flying i j hj
    have hjf : j ≠ f := fun hjf => by
      rw [hjf, hkey] at hold
      exact hik (Option.some.inj hold.1).symm
    rw [hfar hjf]
    exact hold
  case sole =>
    intro u u' j hu hu'
    exact h.sole u u' j (hlead u j hu).1 (hlead u' j hu').1
  case waits =>
    intro u j
    rw [hcaller]
    by_cases hj : j = f
    · subst hj
      rw [hflight, set_self]
      refine iff_of_false ?_ (not_mem_nil (a := u))
      split_ifs with huw hmem
      · simp [hover]
      · nofun
      · exact fun hu => hmem ((h.waits u j).mp hu)
    · rw [hfar hj, ← h.waits u j]
      split_ifs with huw hmem
      · rw [huw, hover, hrole]
        exact iff_of_false nofun nofun
      · rw [(h.waits u f).mpr hmem]
        exact iff_of_false nofun fun heq => hj (Role.waiting.inj heq).symm
      · rfl
  case woke =>
    intro u j hu
    rw [hcaller] at hu
    by_cases hj : j = f
    · subst hj
      rw [hflight, set_self]
      rfl
    · rw [hfar hj]
      split_ifs at hu with huw hmem
      · cases hover.symm.trans hu
      · exact absurd (Role.woken.inj hu).symm hj
      · exact h.woke u j hu
  case count =>
    intro j
    rw [hsum, ← h.count, hflight, set_apply]
    split_ifs with hj
    · rw [Flight.land_waiterN, hj]
    · rfl
  case once =>
    rw [hready, nodup_append']
    refine ⟨h.once, (h.flight f).nodup, fun u hu hmem => ?_⟩
    have hwait := (h.waits u f).mpr hmem
    rcases h.called u hu with hw | ⟨j, hw⟩ <;> cases hwait.symm.trans hw
  case called =>
    intro u hu
    rw [hcaller]
    split_ifs with huw hmem
    · exact .inl hover
    · exact .inr ⟨f, rfl⟩
    · rw [hready, mem_append] at hu
      exact h.called u (hu.resolve_right hmem)

theorem leaderFinish_callers (s : Group κ φ ω ρ) (f : φ) (u : ω) : (s.leaderFinish f).callers u
    = if u ∈ (s.flights f).waiters then { s.callers u with role := .woken f } else s.callers u := by
  unfold Group.leaderFinish
  split <;> exact wake_callers ..

theorem leaderFinish_ready (s : Group κ φ ω ρ) (f : φ) :
    (s.leaderFinish f).ready = s.ready ++ (s.flights f).waiters := by
  unfold Group.leaderFinish
  split <;> exact wake_ready ..

theorem leaderFinish_flights (s : Group κ φ ω ρ)
    (f : φ) : (s.leaderFinish f).flights = s.flights.set f
    { s.flights f with
      done := true
      waiters := []
      frees := if (s.flights f).waiterN = 0 then (s.flights f).frees + 1
        else (s.flights f).frees } := by
  unfold Group.leaderFinish
  split <;> simp only [Group.putFlight, (wake_flights _ _).1]

theorem leaderFinish_inFlight {k : κ} (h : (s.flights f).key = some k) :
    (s.leaderFinish f).inFlight = s.inFlight.set k none := by
  simp only [Group.leaderFinish, h, Group.putFlight, (wake_flights _ _).2]

theorem leaderFinish_sum (s : Group κ φ ω ρ) (f g : φ)
    (h : ∀ u ∈ (s.flights f).waiters, (s.callers u).role = .waiting f ∨
      (s.callers u).role = .woken f) :
    (s.leaderFinish f).callers.sum (fun e => e.role.holds g) = s.callers.sum fun e =>
      e.role.holds g := by
  unfold Group.leaderFinish
  split <;> exact wake_sum _ _ g h

/-- However the leader ended. -/
theorem Ok.leaderFinish (h : Ok s) (hrole : (s.callers w).role = .leading f) (o : Result ρ)
    {g : Flight κ ω ρ → Flight κ ω ρ} (hland : ∀ e : Flight κ ω ρ, { g e with
      done := true, waiters := [], frees := if (g e).waiterN = 0 then (g e).frees + 1
        else (g e).frees } = e.land o)
    (hkeep : ∀ e : Flight κ ω ρ, (g e).key = e.key ∧ (g e).waiters = e.waiters)
    {c : Caller φ ρ → Caller φ ρ} (hover : ∀ e, (c e).role = .over) :
    Ok (((s.putFlight f g).leaderFinish f).putCaller w c) := by
  obtain ⟨k, hkey, hfly⟩ := h.leads w f hrole
  have hflight : (s.putFlight f g).flights f = g (s.flights f) := set_self ..
  have hchain : ((s.putFlight f g).flights f).waiters = (s.flights f).waiters :=
    by rw [hflight, (hkeep _).2]
  have hname : ((s.putFlight f g).flights f).key = some k := by rw [hflight, (hkeep _).1, hkey]
  have hwaits : ∀ u ∈ (s.flights f).waiters, (s.callers u).role = .waiting f ∨
    (s.callers u).role = .woken f :=
    fun u hu => .inl ((h.waits u f).mpr hu)
  have hself : w ∉ (s.flights f).waiters := fun hmem => by
    rcases hwaits w hmem with hw | hw <;> cases hrole.symm.trans hw
  have hleader : ((s.putFlight f g).leaderFinish f).callers w = s.callers w := by
    rw [leaderFinish_callers, hchain, if_neg hself]
    rfl
  refine h.land (o := o) (e := c (s.callers w)) hrole hkey (hover _) ?_ ?_ ?_ (fun u => ?_) fun j =>
    ?_
  · exact leaderFinish_inFlight hname
  · show ((s.putFlight f g).leaderFinish f).flights = _
    rw [leaderFinish_flights, hflight, hland]
    exact set_set ..
  · exact (leaderFinish_ready _ _).trans (congrArg (s.ready ++ ·) hchain)
  · simp only [Group.putCaller, set_apply, hleader]
    split_ifs with huw hmem
    · rfl
    · rw [leaderFinish_callers, hchain, if_pos hmem]
      rfl
    · rw [leaderFinish_callers, hchain, if_neg hmem]
      rfl
  · refine (sum_set_of_eq rfl ?_).trans (leaderFinish_sum _ f j (hchain ▸ hwaits))
    simp only [hleader, hover, Role.holds_over, hrole, Role.holds_leading]

theorem Ok.complete (h : Ok s) (hrole : (s.callers w).role = .leading f) (r : Result ρ) :
    Ok (s.complete w f r) := by
  unfold Group.complete
  refine h.leaderFinish hrole r (fun _ => ?_) (fun _ => ?_) fun _ => rfl
  · cases r <;> rfl
  · cases r <;> exact ⟨rfl, rfl⟩

theorem Ok.kill (h : Ok s) (hrole : (s.callers w).role = .leading f) : Ok (s.kill w f) := by
  unfold Group.kill
  refine h.leaderFinish hrole (.error ownerDead) (fun _ => ?_) (fun _ => ?_) fun _ => rfl
  · rfl
  · exact ⟨rfl, rfl⟩

/-- **No step breaks the invariant.** -/
theorem Ok.step (h : Ok s) {a : Act κ φ ω ρ} (hstep : step s a = some t) : Ok t := by
  cases a with
  | run w k f =>
    obtain ⟨⟨hrole, hfresh⟩, hstep⟩ := Option.ite_none_right_eq_some.mp hstep
    cases hstep
    unfold Group.run
    cases hfly : s.inFlight k with
    | some f' => exact h.follow hrole hfly
    | none => exact h.lead hrole hfly hfresh
  | complete w r =>
    simp only [Singleflight.step] at hstep
    split at hstep <;> cases hstep
    exact h.complete ‹_› r
  | kill w =>
    simp only [Singleflight.step] at hstep
    split at hstep <;> cases hstep
    exact h.kill ‹_›
  | resume w =>
    simp only [Singleflight.step] at hstep
    split at hstep <;> cases hstep
    exact h.resume ‹_›
  | drop w =>
    simp only [Singleflight.step] at hstep
    split at hstep <;> cases hstep
    · exact h.drop (.inl ‹_›)
    · exact h.drop (.inr ‹_›)

end Cornet.Singleflight
