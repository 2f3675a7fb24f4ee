import Cornet.Http.Server.Accepting

/-!
# Http/Server/AcceptingRuns — how many connections are open, and which of them a drain reaches

    open = conns_ + in the handshake + about to start

The limit is kept exactly as long as no connection is admitted on the strength of `conns_` alone;
without TLS the ready queue sees to that.  A drain reaches every open connection exactly if none of
them is still on its way into `active_`.
-/

namespace Cornet.Http.Accepting

open List Function

variable {s t : Server} {cs : List ℕ} {q : Option Accepted} {c : ℕ} {a : Act}

/-! ## What a step does -/

/-- The accept loop is resumed with a socket. -/
def Job.offers : Job → Bool
  | .acceptLoop (.socket _) => true
  | _ => false

/-- The accept loop is about to spawn a connection. -/
def Admits (s : Server) (a : Act) : Prop :=
  a = .resume ∧ (∃ job ∈ s.ready.head?, job.offers = true) ∧ s.mode = .running ∧
    s.conns < s.maxConnections

instance (s : Server) (a : Act) : Decidable (Admits s a) :=
  inferInstanceAs (Decidable (_ ∧ _ ∧ _ ∧ _))

/-- The server is told to wind up while it runs. -/
def Drains (s : Server) (a : Act) : Prop := (a = .drain ∨ a = .stop) ∧ s.mode = .running

instance (s : Server) (a : Act) : Decidable (Drains s a) := inferInstanceAs (Decidable (_ ∧ _))

/-- What a step that does not drain does: it opens a connection, lets one go, takes one to another
stage and gives a session the `closing_` of that moment, or has the loop go on. -/
inductive Effect (s : Server) (a : Act) : Server → Prop
  | taken {loop : Loop} {ready : List Job} (c : ℕ) (ha : Admits s a) :
      Effect s a { s.setStage c .starting with loop := loop, ready := ready, pool := c :: s.pool }
  | leave {conns : ℕ} {active : List ℕ} (c : ℕ) (ha : ¬ Admits s a) :
      Effect s a
        { s.setStage c .ended with conns := conns, active := active, pool := s.pool.erase c }
  | stage {late : ℕ → Bool} {ready : List Job} {conns : ℕ} {active : List ℕ} (c : ℕ) (g : Stage)
    (ha : ¬ Admits s a)
      (hreg : (s.stage c).registered = true → g.registered = true)
      (hsession : g = .session false → late c = s.closing c)
        (hlate : ∀ d, d ≠ c → late d = s.late d) :
      Effect s a
        { s.setStage c g with late := late, ready := ready, conns := conns, active := active }
  | turn {loop : Loop} {ready : List Job} {mode : Mode} (ha : ¬ Admits s a)
      (hmode : mode = .running ↔ s.mode = .running) : Effect s a
        { s with loop := loop, ready := ready, mode := mode }

theorem effect_onAccept {res : Accepted} {rest : List Job}
    (hready : s.ready = .acceptLoop res :: rest) :
    Effect s .resume (Server.onAccept { s with ready := rest } res) := by
  have hno : ¬ ((∃ c, res = .socket c) ∧ s.mode = .running ∧ s.conns < s.maxConnections) →
    ¬ Admits s .resume := by
    rintro hno ⟨-, ⟨job, hjob, hoffers⟩, hok⟩
    rw [hready] at hjob
    obtain rfl := Option.some.inj hjob
    refine hno ⟨?_, hok⟩
    cases res with
    | socket c => exact ⟨c, rfl⟩
    | closed | exhausted | failed => cases hoffers
  cases res with
  | socket c =>
    rw [Server.onAccept]
    split_ifs with hmode hfull
    · exact .turn (hno fun hok => hmode hok.2.1) Iff.rfl
    · exact .turn (hno fun hok => Nat.not_lt.mpr hfull hok.2.2) Iff.rfl
    · exact .taken c ⟨rfl, ⟨_, by rw [hready]; rfl, rfl⟩, not_not.mp hmode, Nat.lt_of_not_le hfull⟩
  | closed | exhausted | failed => exact .turn (hno (by rintro ⟨⟨c, ⟨⟩⟩, -⟩)) Iff.rfl

theorem effect_onStart {rest : List Job} (hready : s.ready = .connection c :: rest)
    (hc : s.stage c = .starting) :
    Effect s .resume (Server.onStart { s with ready := rest } c) := by
  have hno : ¬ Admits s .resume := by
    rintro ⟨-, ⟨job, hjob, hoffers⟩, -⟩
    rw [hready] at hjob
    obtain rfl := Option.some.inj hjob
    cases hoffers
  rw [Server.onStart]
  split_ifs <;> exact .stage c _ hno (by rw [hc]; rintro ⟨⟩) (by rintro ⟨⟩) fun _ _ => rfl

theorem effect_step (h : Inv s cs q) (hnot : ¬ Drains s a) (hst : step s a = some t) : Effect s a
    t := by
  have hno : a ≠ .resume → ¬ Admits s a := fun hne ha => hne ha.1
  cases a with
  | accept res | wake =>
    rw [step] at hst
    split_ifs at hst
    obtain rfl := Option.some.inj hst
    exact .turn (hno (by rintro ⟨⟩)) Iff.rfl
  | resume =>
    rw [step] at hst
    split at hst
    · cases hst
    · rename_i res rest hready
      exact Option.some.inj hst ▸ effect_onAccept hready
    · rename_i c rest hready
      rcases h.front hready with ⟨d, ⟨⟩, hd, -⟩ | ⟨res, ⟨⟩, -⟩
      exact Option.some.inj hst ▸ effect_onStart hready hd
  | handshake c ok =>
    rw [step] at hst
    split_ifs at hst with hc
    obtain rfl := Option.some.inj hst
    rw [Server.onHandshake]
    split_ifs
    · exact .stage c _ (hno (by rintro ⟨⟩)) (by rw [hc]; rintro ⟨⟩) (by rintro ⟨⟩) fun _ _ => rfl
    · exact .leave c (hno (by rintro ⟨⟩))
  | upgrade c | handlerDone c =>
    rw [step] at hst
    split_ifs at hst
    obtain rfl := Option.some.inj hst
    exact .stage c _ (hno (by rintro ⟨⟩)) (fun _ => rfl) (by rintro ⟨⟩) fun _ _ => rfl
  | openSession c =>
    rw [step] at hst
    split_ifs at hst
    obtain rfl := Option.some.inj hst
    exact .stage c _ (hno (by rintro ⟨⟩)) (fun _ => rfl) (fun _ => update_self ..) fun _ hd =>
      update_of_ne hd ..
  | finish c =>
    rw [step] at hst
    split_ifs at hst
    obtain rfl := Option.some.inj hst
    exact .leave c (hno (by rintro ⟨⟩))
  | drain =>
    obtain rfl := Option.some.inj hst
    have hmode : s.mode ≠ .running := fun hm => hnot ⟨.inl rfl, hm⟩
    rw [Server.drain, if_pos hmode]
    exact .turn (hno (by rintro ⟨⟩)) Iff.rfl
  | stop =>
    obtain rfl := Option.some.inj hst
    have hmode : s.mode ≠ .running := fun hm => hnot ⟨.inr rfl, hm⟩
    rw [Server.stop, Server.drain, if_pos hmode]
    exact .turn (hno (by rintro ⟨⟩)) (iff_of_false (by rintro ⟨⟩) hmode)

/-- A drain sets `closing_` of what is in `active_`, and tells their sessions. -/
theorem drain_step (hd : Drains s a) (hst : step s a = some t) : ∃ mode : Mode, mode ≠ .running ∧
    t =
    { s with
      mode := mode
      closing := fun c => s.closing c || decide (c ∈ s.active)
      stage := fun c => if c ∈ s.active ∧ s.stage c = .session false then .session true
        else s.stage c } := by
  obtain ⟨rfl | rfl, hmode⟩ := hd
  · refine ⟨.draining, by rintro ⟨⟩, (Option.some.inj hst).symm.trans ?_⟩
    rw [Server.drain, if_neg (not_not.mpr hmode), foldl_requestClose]
  · refine ⟨.stopped, by rintro ⟨⟩, (Option.some.inj hst).symm.trans ?_⟩
    rw [Server.stop, Server.drain, if_neg (not_not.mpr hmode), foldl_requestClose]

/-- The options do not change. -/
theorem config_step (h : Inv s cs q) (hst : step s a = some t) :
    t.maxConnections = s.maxConnections ∧ t.tls = s.tls := by
  by_cases hd : Drains s a
  · obtain ⟨mode, -, rfl⟩ := drain_step hd hst
    exact ⟨rfl, rfl⟩
  · cases effect_step h hd hst <;> exact ⟨rfl, rfl⟩

/-- Only the accept loop opens a connection. -/
theorem pool_step (h : Inv s cs q) (hst : step s a = some t) : (Admits s a ∧ ∃ c,
    t.pool = c :: s.pool) ∨
    (¬ Admits s a ∧ t.pool.length ≤ s.pool.length) := by
  by_cases hd : Drains s a
  · obtain ⟨mode, -, rfl⟩ := drain_step hd hst
    refine .inr ⟨fun ha => ?_, le_rfl⟩
    rcases hd.1 with rfl | rfl <;> cases ha.1
  · cases effect_step h hd hst with
    | taken c ha => exact .inl ⟨ha, c, rfl⟩
    | leave c ha => exact .inr ⟨ha, length_erase_le⟩
    | stage c g ha | turn ha => exact .inr ⟨ha, le_rfl⟩

/-! ## The limit -/

/-- A connection is admitted only if the open ones, counted in `conns_` or not, leave room for
it. -/
def Counted (s : Server) (a : Act) : Prop := Admits s a → s.pool.length < s.maxConnections

instance (s : Server) (a : Act) : Decidable (Counted s a) := inferInstanceAs (Decidable (_ → _))

/-- With TLS, that is; without it there is nothing to ask. -/
def CountedTls (tls : Bool) (s : Server) (a : Act) : Prop := tls = true → Counted s a

instance (tls : Bool) (s : Server) (a : Act) : Decidable (CountedTls tls s a) :=
  inferInstanceAs (Decidable (_ → _))

/-- **Without TLS every open connection is in the books** when the accept loop looks at them. -/
theorem Inv.counted_of_plain (h : Inv s cs q) (htls : s.tls = false) : Counted s a := by
  rintro ⟨rfl, ⟨job, hjob, hoffers⟩, -, hlt⟩
  obtain ⟨rest, hready⟩ := head?_eq_some_iff.mp hjob
  obtain rfl : cs = [] := by
    rcases h.front hready with ⟨d, rfl, -⟩ | ⟨res, -, hcs, -⟩
    · cases hoffers
    · exact hcs
  have hsub : s.pool ⊆ s.active := by
    intro d hd
    have hb := h.booked d
    rw [hb.active]
    have hended := hb.pool.mp hd
    have hstart : s.stage d ≠ .starting := fun hst => not_mem_nil (hb.starting.mpr hst)
    have hshake := hb.plain htls
    cases hg : s.stage d <;> simp_all [Stage.registered]
  exact ((subperm_of_subset h.pool_nodup hsub).length_le.trans_eq h.conns_eq.symm).trans_lt hlt

theorem pool_le_iff (h : Inv s cs q) (hle : s.pool.length ≤ s.maxConnections)
    (hst : step s a = some t) :
    t.pool.length ≤ s.maxConnections ↔ Counted s a := by
  rcases pool_step h hst with ⟨had, c, hpool⟩ | ⟨hno, hpool⟩
  · rw [hpool, length_cons, Nat.succ_le_iff]
    exact ⟨fun hlt _ => hlt, fun hc => hc had⟩
  · exact iff_of_true (hpool.trans hle) fun had => absurd had hno

/-- **The limit, exactly**: with TLS the open connections stay within `max_connections` as long as
none is admitted while those in their handshake already make up the number; without it, always. -/
theorem connection_limit {maxConnections : ℕ} {tls : Bool} {as : List Act}
    (h : Run step (CountedTls tls) (.start maxConnections tls) as s) :
    s.pool.length ≤ maxConnections ∧
      ∀ a t, step s a = some t → (t.pool.length ≤ maxConnections ↔ CountedTls tls s a) := by
  have hiff : ∀ {s : Server} {a : Act} {t : Server}, (∃ cs q, Inv s cs q) →
    s.maxConnections = maxConnections →
      s.tls = tls → s.pool.length ≤ maxConnections → step s a = some t →
      (t.pool.length ≤ maxConnections ↔ CountedTls tls s a) := by
    rintro s a t ⟨cs, q, hinv⟩ rfl rfl hle hst
    rw [pool_le_iff hinv hle hst]
    cases htls : s.tls with
    | true => exact ⟨fun hc _ => hc, fun hc => hc rfl⟩
    | false => exact iff_of_true (hinv.counted_of_plain htls) fun hf => absurd hf Bool.false_ne_true
  obtain ⟨hinv, hmax, htls, hle⟩ : (∃ cs q, Inv s cs q) ∧ s.maxConnections = maxConnections ∧
    s.tls = tls ∧
      s.pool.length ≤ maxConnections := by
    refine h.invariant (I := fun s => (∃ cs q, Inv s cs q) ∧ s.maxConnections = maxConnections ∧
      s.tls = tls ∧
      s.pool.length ≤ maxConnections) ⟨⟨[], none, inv_start maxConnections tls⟩, rfl, rfl,
        Nat.zero_le _⟩ ?_
    rintro s a t ⟨⟨cs, q, hinv⟩, hmax, htls, hle⟩ hok hst
    have hcfg := config_step hinv hst
    exact ⟨hinv.step hst, hcfg.1.trans hmax, hcfg.2.trans htls,
      (hiff ⟨cs, q, hinv⟩ hmax htls hle hst).mpr hok⟩
  exact ⟨hle, fun a t hst => hiff hinv hmax htls hle hst⟩

/-- Two places: two connections shake hands one after the other, and a third is refused. -/
def refusedWord : List Act :=
  [.accept (.socket 0), .resume, .resume, .handshake 0 true, .accept (.socket 1), .resume, .resume,
    .handshake 1 true,
    .accept (.socket 2), .resume]

theorem connection_limit_refused : ∃ s : Server, Run step (CountedTls true)
    (.start 2 true) refusedWord s ∧
    s.pool.length ≤ 2 ∧ s.pool = [1, 0] ∧ s.conns = 2 :=
  Run.exists_and_of_mem (fun h => (connection_limit h).1) (by decide +kernel)

/-- **One place, two handshakes.** -/
theorem handshakes_exceed_limit : ∃ s : Server,
    Run step (fun _ _ => True) (.start 1 true)
      [.accept (.socket 0), .resume, .resume, .accept (.socket 1), .resume, .resume] s ∧
      s.stage 0 = .handshaking ∧ s.stage 1 = .handshaking ∧ ¬ s.pool.length ≤ 1 :=
  Run.exists_of_mem (by decide +kernel)

/-! ## The drain -/

/-- A drain finds every open connection in `active_`. -/
def Reached (s : Server) (a : Act) : Prop := Drains s a → ∀ c ∈ s.pool, c ∈ s.active

instance (s : Server) (a : Act) : Decidable (Reached s a) := inferInstanceAs (Decidable (_ → _))

/-- Once the server winds up every open connection knows: its `closing_` is set, and so is its
session's unless that was opened after `closing_` had been set. -/
def Server.AllTold (s : Server) : Prop :=
  s.mode ≠ .running → ∀ c ∈ s.pool, s.closing c = true ∧
    (s.stage c = .session false → s.late c = true)

/-- What a step that does not drain does: it sets no `closing_`, opens no connection unless the
server runs, takes none out of `active_` but one that ends, and opens a session with the `closing_`
of that moment. -/
structure Quiet (s t : Server) : Prop where
  mode : t.mode = .running ↔ s.mode = .running
  closing : t.closing = s.closing
  pool : s.mode ≠ .running → ∀ c ∈ t.pool, c ∈ s.pool ∧
    ((s.stage c).registered = true → (t.stage c).registered = true)
  session : ∀ c, t.stage c = .session false → (s.stage c = .session false ∧ t.late c = s.late c) ∨
    t.late c = s.closing c

theorem quiet_step (h : Inv s cs q) (hno : ¬ Drains s a) (hst : step s a = some t) : Quiet s t := by
  cases effect_step h hno hst with
  | taken c ha =>
    refine ⟨Iff.rfl, rfl, fun hrun => absurd ha.2.2.1 hrun, fun d hd => ?_⟩
    simp only [Server.setStage, update_apply] at hd
    split_ifs at hd
    exact .inl ⟨hd, rfl⟩
  | leave c =>
    refine ⟨Iff.rfl, rfl, fun _ d hd => ?_, fun d hd => ?_⟩
    · obtain ⟨hdc, hd⟩ := h.pool_nodup.mem_erase_iff.mp hd
      refine ⟨hd, fun hr => ?_⟩
      simpa only [Server.setStage, update_of_ne hdc] using hr
    · simp only [Server.setStage, update_apply] at hd
      split_ifs at hd
      exact .inl ⟨hd, rfl⟩
  | stage c g _ hreg hsession hlate =>
    refine ⟨Iff.rfl, rfl, fun _ d hd => ⟨hd, fun hr => ?_⟩, fun d hd => ?_⟩
    · simp only [Server.setStage, update_apply]
      split_ifs with hdc
      · exact hreg (hdc ▸ hr)
      · exact hr
    · simp only [Server.setStage, update_apply] at hd
      split_ifs at hd with hdc
      · exact .inr (by simpa only [hdc] using hsession hd)
      · exact .inl ⟨hd, hlate d hdc⟩
  | turn _ hmode => exact ⟨hmode, rfl, fun _ _ hd => ⟨hd, id⟩, fun _ hd => .inl ⟨hd, rfl⟩⟩

/-- The drain's own invariant. -/
structure Wound (s : Server) : Prop where
  open_closing : s.mode = .running → ∀ c, s.closing c = false
  told : s.AllTold
  registered : s.mode ≠ .running → ∀ c ∈ s.pool, (s.stage c).registered = true

theorem Wound.quiet (h : Wound s) (hq : Quiet s t) : Wound t where
  open_closing hm c := by
    rw [hq.closing]
    exact h.open_closing (hq.mode.mp hm) c
  told hm c hc := by
    have hs : s.mode ≠ .running := fun he => hm (hq.mode.mpr he)
    obtain ⟨hclosing, hlate⟩ := h.told hs c (hq.pool hs c hc).1
    refine ⟨by rw [hq.closing, hclosing], fun hg => ?_⟩
    rcases hq.session c hg with ⟨hg, he⟩ | he
    · rw [he, hlate hg]
    · rw [he, hclosing]
  registered hm c hc := by
    have hs : s.mode ≠ .running := fun he => hm (hq.mode.mpr he)
    obtain ⟨hmem, hreg⟩ := hq.pool hs c hc
    exact hreg (h.registered hs c hmem)

theorem Wound.allTold_drain_iff (h : Wound s) (hd : Drains s a) (hst : step s a = some t) :
    t.AllTold ↔ ∀ c ∈ s.pool, c ∈ s.active := by
  obtain ⟨mode, hmode, rfl⟩ := drain_step hd hst
  have hclosing : ∀ c, (s.closing c || decide (c ∈ s.active)) = true ↔ c ∈ s.active := by
    intro c
    rw [h.open_closing hd.2, Bool.false_or, decide_eq_true_eq]
  constructor
  · intro htold c hc
    exact (hclosing c).mp (htold hmode c hc).1
  · intro hall _ c hc
    refine ⟨(hclosing c).mpr (hall c hc), fun hg => ?_⟩
    dsimp only at hg
    split_ifs at hg with hs
    · cases hg
    · exact absurd ⟨hall c hc, hg⟩ hs

theorem wound_step (h : Inv s cs q) (hw : Wound s) (hok : Reached s a)
    (hst : step s a = some t) : Wound t := by
  by_cases hd : Drains s a
  · have htold := (hw.allTold_drain_iff hd hst).mpr (hok hd)
    obtain ⟨mode, hmode, rfl⟩ := drain_step hd hst
    refine ⟨fun hm => absurd hm hmode, htold, fun _ c hc => ?_⟩
    have hreg := (h.booked c).active.mp (hok hd c hc)
    dsimp only
    split_ifs
    · rfl
    · exact hreg
  · exact hw.quiet (quiet_step h hd hst)

/-- **A drain reaches everybody, exactly** if every open connection is in `active_` when it comes;
from then on all open connections know, and stay so. -/
theorem drain_reaches {maxConnections : ℕ} {tls : Bool} {as : List Act}
    (h : Run step Reached (.start maxConnections tls) as s) :
    s.AllTold ∧ ∀ a t, step s a = some t → (t.AllTold ↔ Reached s a) := by
  obtain ⟨⟨cs, q, hinv⟩, hw⟩ : (∃ cs q, Inv s cs q) ∧ Wound s := by
    refine h.invariant (I := fun s => (∃ cs q, Inv s cs q) ∧ Wound s)
      ⟨⟨[], none, inv_start maxConnections tls⟩, fun _ _ => rfl, fun hm => absurd rfl hm, fun hm =>
        absurd rfl hm⟩ ?_
    rintro s a t ⟨⟨cs, q, hinv⟩, hw⟩ hok hst
    exact ⟨hinv.step hst, wound_step hinv hw hok hst⟩
  refine ⟨hw.told, fun a t hst => ?_⟩
  by_cases hd : Drains s a
  · rw [hw.allTold_drain_iff hd hst]
    exact ⟨fun hall _ => hall, fun hr => hr hd⟩
  · exact iff_of_true (hw.quiet (quiet_step hinv hd hst)).told fun hd' => absurd hd' hd

/-- A drain finds one connection in its handler and one in its session. -/
def drainWord : List Act :=
  [.accept (.socket 0), .resume, .resume, .accept (.socket 1), .resume, .resume, .upgrade 1,
    .openSession 1, .drain]

theorem drain_reaches_session : ∃ s : Server, Run step Reached (.start 2 false) drainWord s ∧
    s.AllTold ∧
    s.mode = .draining ∧ s.pool = [1, 0] ∧ s.stage 1 = .session true :=
  Run.exists_and_of_mem (fun h => (drain_reaches h).1) (by decide +kernel)

/-- A connection that is switching protocols is told, but the session it opens afterwards is not. -/
example : (exec step Reached (.start 1 false)
    [.accept (.socket 0), .resume, .resume, .upgrade 0, .drain, .openSession 0]).map
      (fun s => (s.closing 0, s.stage 0, s.late 0)) = some (true, .session false, true) := by
  decide +kernel

/-- **The drain misses a connection** that has been accepted and not yet resumed: it is served
afterwards, and nothing tells it to close. -/
theorem drain_misses_spawned : ∃ s : Server,
    Run step (fun _ _ => True) (.start 2 false) [.accept (.socket 0), .resume, .drain, .resume] s ∧
      s.mode = .draining ∧ s.stage 0 = .serving ∧ s.closing 0 = false ∧ ¬ s.AllTold := by
  have hend : ∃ s ∈ exec step (fun _ _ => True) (.start 2 false) [.accept (.socket 0), .resume,
    .drain, .resume],
      s.mode = .draining ∧ s.stage 0 = .serving ∧ s.closing 0 = false ∧ 0 ∈ s.pool := by
    decide +kernel
  obtain ⟨s, hs, hmode, hstage, hclosing, hmem⟩ := hend
  refine ⟨s, .of_exec hs, hmode, hstage, hclosing, fun htold => ?_⟩
  have htrue := (htold (by rw [hmode]; rintro ⟨⟩) 0 hmem).1
  exact Bool.false_ne_true (hclosing.symm.trans htrue)

end Cornet.Http.Accepting
