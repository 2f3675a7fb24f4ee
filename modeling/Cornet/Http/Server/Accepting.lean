import Mathlib.Data.List.Perm.Subperm
import Cornet.Machinery.Run

/-!
# Http/Server/Accepting — `server_t`: accepting, counting and draining

    accept ─▸ spawn ─▸ [TLS handshake] ─▸ ++conns_, active_ ─▸ run ─▸ [session] ─▸ --conns_
              └──────── not in active_ ───────┘

The accept loop tests `conns_`, which a connection enters only when it starts to be served; `drain`
reaches the connections in `active_`.  Between the accept and that point a connection is in neither.
The ready queue is first in, first out: without TLS a connection has entered before the next accept
is looked at, with TLS it may be anywhere in its handshake.
-/

namespace Cornet.Http.Accepting

open List Function

/-! ## The code -/

/-- `server_t::state_t`. -/
inductive Mode
  | running
  | draining
  | stopped
  deriving DecidableEq, Repr

/-- Where a connection is: its coroutine spawned but not resumed, in the handshake, in
`connection_t::run`, in `run_websocket` before the session exists, in the session's handler, in
`session_t::finish`, or gone. -/
inductive Stage
  | ended
  | starting
  | handshaking
  | serving
  | upgrading
  | session (told : Bool)
  | finishing
  deriving DecidableEq, Repr

/-- In `active_`. -/
def Stage.registered : Stage → Bool
  | .serving | .upgrading | .session _ | .finishing => true
  | .ended | .starting | .handshaking => false

/-- How an accept ends: with a socket, because the listener is closed, for want of descriptors, or
otherwise. -/
inductive Accepted
  | socket (c : ℕ)
  | closed
  | exhausted
  | failed
  deriving DecidableEq, Repr

/-- Where the accept loop is: at its accept, in the ready queue, in its pause, or over. -/
inductive Loop
  | armed
  | queued
  | sleeping
  | over
  deriving DecidableEq, Repr

/-- What the ready queue resumes. -/
inductive Job
  | connection (c : ℕ)
  | acceptLoop (res : Accepted)
  deriving DecidableEq, Repr

/-- `server_t`, the ready queue, and the connections accepted and not yet gone.  `late c` remembers
that the session of `c` was opened after its `closing_` had been set. -/
structure Server where
  maxConnections : ℕ
  tls : Bool
  mode : Mode := .running
  loop : Loop := .armed
  conns : ℕ := 0
  active : List ℕ := []
  ready : List Job := []
  stage : ℕ → Stage := fun _ => .ended
  closing : ℕ → Bool := fun _ => false
  late : ℕ → Bool := fun _ => false
  pool : List ℕ := []

variable (s : Server)

def Server.setStage (c : ℕ) (g : Stage) : Server := { s with stage := Function.update s.stage c g }

/-- The top of the accept loop: an accept is armed while the server runs. -/
def Server.acceptAgain : Server := { s with loop := if s.mode = .running then .armed else .over }

/-- The rest of the accept loop's body. -/
def Server.onAccept : Accepted → Server
  | .socket c =>
    if s.mode ≠ .running then { s with loop := .over }
    else if s.conns ≥ s.maxConnections then s.acceptAgain
    else
      Server.acceptAgain
        { s.setStage c .starting with pool := c :: s.pool, ready := s.ready ++ [.connection c] }
  | .closed => { s with loop := .over }
  | .exhausted => { s with loop := .sleeping }
  | .failed => s.acceptAgain

/-- `connection_t` is built and entered into the books. -/
def Server.register (c : ℕ) : Server :=
  { s.setStage c .serving with conns := s.conns + 1, active := s.active ++ [c] }

/-- `serve_connection` is resumed for the first time. -/
def Server.onStart (c : ℕ) : Server := if s.tls then s.setStage c .handshaking else s.register c

def Server.onHandshake (c : ℕ) (ok : Bool) : Server :=
  if ok then s.register c else { s.setStage c .ended with pool := s.pool.erase c }

/-- `connection_t::run` has returned. -/
def Server.onEnd (c : ℕ) : Server :=
  { s.setStage c .ended with conns := s.conns - 1, active := s.active.erase c,
                             pool := s.pool.erase c }

/-- `connection_t::request_close`. -/
def Server.requestClose (c : ℕ) : Server :=
  { s with
    closing := Function.update s.closing c true
    stage := if s.stage c = .session false then Function.update s.stage c (.session true)
      else s.stage }

/-- `server_t::drain`. -/
def Server.drain : Server :=
  if s.mode ≠ .running then s
  else s.active.foldl Server.requestClose { s with mode := .draining }

/-- `server_t::stop`. -/
def Server.stop : Server := { s.drain with mode := .stopped }

/-! ## The system -/

inductive Act
  /-- the pending accept completes -/
  | accept (res : Accepted)
  /-- the ready queue's front is resumed -/
  | resume
  /-- the accept loop wakes up from its pause -/
  | wake
  | handshake (c : ℕ) (ok : Bool)
  /-- the request switches protocols -/
  | upgrade (c : ℕ)
  | openSession (c : ℕ)
  | handlerDone (c : ℕ)
  | finish (c : ℕ)
  | drain
  | stop
  deriving DecidableEq, Repr

/-- The new socket's connection is nobody else's. -/
def Accepted.fresh : Accepted → Prop
  | .socket c => s.stage c = .ended
  | _ => True

instance : (res : Accepted) → Decidable (Accepted.fresh s res)
  | .socket _ => inferInstanceAs (Decidable (s.stage _ = .ended))
  | .closed | .exhausted | .failed => inferInstanceAs (Decidable True)

/-- `connection_t::run_websocket`. -/
def step (s : Server) : Act → Option Server
  | .accept res =>
    if s.loop = .armed ∧ Accepted.fresh s res then
      some { s with loop := .queued, ready := s.ready ++ [.acceptLoop res] }
    else none
  | .resume =>
    match s.ready with
    | [] => none
    | .acceptLoop res :: rest => some (Server.onAccept { s with ready := rest } res)
    | .connection c :: rest => some (Server.onStart { s with ready := rest } c)
  | .wake => if s.loop = .sleeping then some s.acceptAgain else none
  | .handshake c ok => if s.stage c = .handshaking then some (s.onHandshake c ok) else none
  | .upgrade c => if s.stage c = .serving then some (s.setStage c .upgrading) else none
  | .openSession c =>
    if s.stage c = .upgrading then
      some { s.setStage c (.session false) with late := Function.update s.late c (s.closing c) }
    else none
  | .handlerDone c => if s.stage c = .session true ∨ s.stage c = .session false then some (s.setStage c .finishing) else none
  | .finish c =>
    if s.stage c = .serving ∨ s.stage c = .upgrading ∨ s.stage c = .finishing then some (s.onEnd c)
      else none
  | .drain => some s.drain
  | .stop => some s.stop

/-- `server_t::serve`. -/
def Server.start (maxConnections : ℕ) (tls : Bool) : Server := { maxConnections, tls }

/-! ## The books

`cs` are the connections spawned and not yet resumed, in the order of the ready queue; `q` is the
accept the loop has still to look at.  The queue holds nothing else, and the accept stands behind
the connections. -/

/-- What the books say of a connection at stage `g`. -/
structure Booked (tls : Bool) (active pool starting : Prop) (g : Stage) : Prop where
  active : active ↔ g.registered = true
  pool : pool ↔ g ≠ .ended
  starting : starting ↔ g = .starting
  plain : tls = false → g ≠ .handshaking

structure Inv (s : Server) (cs : List ℕ) (q : Option Accepted) : Prop where
  booked : ∀ c, Booked s.tls (c ∈ s.active) (c ∈ s.pool) (c ∈ cs) (s.stage c)
  conns_eq : s.conns = s.active.length
  active_nodup : s.active.Nodup
  pool_nodup : s.pool.Nodup
  starting_nodup : cs.Nodup
  ready_eq : s.ready = cs.map .connection ++ q.toList.map .acceptLoop
  queued_iff : s.loop = .queued ↔ q.isSome = true
  fresh : ∀ c, q = some (.socket c) → s.stage c = .ended

variable {s} {t : Server} {cs cs' : List ℕ} {q : Option Accepted} {c : ℕ} {g : Stage}

theorem inv_start (maxConnections : ℕ) (tls : Bool) : Inv (.start maxConnections tls) [] none where
  booked c := by constructor <;> simp [Server.start, Stage.registered]
  conns_eq := rfl
  active_nodup := nodup_nil
  pool_nodup := nodup_nil
  starting_nodup := nodup_nil
  ready_eq := rfl
  queued_iff := by simp [Server.start]
  fresh c hc := by cases hc

/-- One connection changes; the books of the others stay. -/
theorem Inv.rebook (h : Inv s cs q) (c : ℕ) (htls : t.tls = s.tls)
    (hself : Booked t.tls (c ∈ t.active) (c ∈ t.pool) (c ∈ cs') (t.stage c))
    (hother : ∀ d, d ≠ c → t.stage d = s.stage d ∧ (d ∈ t.active ↔ d ∈ s.active) ∧
      (d ∈ t.pool ↔ d ∈ s.pool) ∧
      (d ∈ cs' ↔ d ∈ cs)) (d : ℕ) : Booked t.tls (d ∈ t.active) (d ∈ t.pool) (d ∈ cs')
        (t.stage d) := by
  by_cases hd : d = c
  · exact hd ▸ hself
  · obtain ⟨hstage, hactive, hpool, hstart⟩ := hother d hd
    rw [htls, hstage, hactive, hpool, hstart]
    exact h.booked d

/-- Connections in `active_` may change their stage among themselves. -/
theorem Inv.restage {stage : ℕ → Stage} {closing late : ℕ → Bool} {mode : Mode} (h : Inv s cs q)
    (hstage : ∀ c, stage c = s.stage c ∨
      ((s.stage c).registered = true ∧ (stage c).registered = true)) :
    Inv { s with stage := stage, closing := closing, late := late, mode := mode } cs q := by
  refine { h with booked := fun c => ?_, fresh := fun c hc => ?_ }
  · rcases hstage c with he | ⟨hs, ht⟩
    · simp only [he]
      exact h.booked c
    · have hb := h.booked c
      have hne : ∀ g : Stage, g.registered = false → s.stage c ≠ g ∧ stage c ≠ g :=
        fun g hg => ⟨fun he => absurd hs (by simp [he, hg]), fun he => absurd ht (by simp [he, hg])⟩
      exact ⟨hb.active.trans (iff_of_true hs ht),
        hb.pool.trans (iff_of_true (hne _ rfl).1 (hne _ rfl).2),
        hb.starting.trans (iff_of_false (hne _ rfl).1 (hne _ rfl).2), fun _ => (hne _ rfl).2⟩
  · rcases hstage c with he | ⟨hs, -⟩
    · exact he.trans (h.fresh c hc)
    · rw [h.fresh c hc] at hs
      cases hs

/-- The accept loop has looked at its accept and goes on, or not. -/
theorem Inv.looked {res : Accepted} {loop : Loop} (h : Inv s [] (some res))
    (hloop : loop ≠ .queued) :
    Inv { s with ready := [], loop := loop } [] none :=
  { h with
    ready_eq := rfl
    queued_iff := iff_of_false hloop Bool.false_ne_true
    fresh := fun c hc => by cases hc }

theorem Inv.admit (h : Inv s [] (some (.socket c))) :
    Inv { s with ready := [.connection c], loop := .armed, pool := c :: s.pool,
                 stage := Function.update s.stage c .starting } [c] none where
  booked := by
    have hended : s.stage c = .ended := h.fresh c rfl
    have hb := h.booked c
    rw [hended] at hb
    refine h.rebook c rfl ⟨?_, ?_, ?_, ?_⟩ fun d hd => ⟨update_of_ne hd .., Iff.rfl, ?_, ?_⟩
    · simpa [Stage.registered] using hb.active
    · simp
    · simp
    · simp
    · simp [hd]
    · simp [hd]
  conns_eq := h.conns_eq
  active_nodup := h.active_nodup
  pool_nodup := nodup_cons.mpr ⟨fun hc => (h.booked c).pool.mp hc (h.fresh c rfl), h.pool_nodup⟩
  starting_nodup := nodup_singleton c
  ready_eq := rfl
  queued_iff := iff_of_false (by rintro ⟨⟩) Bool.false_ne_true
  fresh d hd := by cases hd

/-- A connection outside `active_` is entered. -/
theorem Inv.register {ready : List Job} (h : Inv s cs q)
    (hc : s.stage c = .starting ∨ s.stage c = .handshaking)
    (hready : ready = (cs.erase c).map .connection ++ q.toList.map .acceptLoop) :
    Inv (Server.register { s with ready := ready } c) (cs.erase c) q where
  booked := by
    have hmem : c ∈ s.pool := (h.booked c).pool.mpr (by rcases hc with hc | hc <;> simp [hc])
    refine h.rebook c rfl ⟨?_, ?_, ?_, ?_⟩ fun d hd => ⟨update_of_ne hd .., ?_, Iff.rfl, ?_⟩
    · simp [Server.register, Server.setStage, Stage.registered]
    · simpa [Server.register, Server.setStage] using hmem
    · simp [Server.register, Server.setStage, h.starting_nodup.mem_erase_iff]
    · simp [Server.register, Server.setStage]
    · simp [Server.register, Server.setStage, hd]
    · simp [h.starting_nodup.mem_erase_iff, hd]
  conns_eq := by simp [Server.register, Server.setStage, h.conns_eq]
  active_nodup := by
    have hnot : c ∉ s.active := fun hmem => by
      have hreg := (h.booked c).active.mp hmem
      rcases hc with hc | hc <;> simp [hc, Stage.registered] at hreg
    refine nodup_append'.mpr ⟨h.active_nodup, nodup_singleton c, ?_⟩
    simpa using hnot
  pool_nodup := h.pool_nodup
  starting_nodup := h.starting_nodup.erase c
  ready_eq := hready
  queued_iff := h.queued_iff
  fresh d hd := by
    have hdc : d ≠ c := by
      rintro rfl
      rw [h.fresh d hd] at hc
      rcases hc with ⟨⟨⟩⟩ | ⟨⟨⟩⟩
    exact (update_of_ne hdc ..).trans (h.fresh d hd)

theorem Inv.shake {ready : List Job} (h : Inv s cs q) (htls : s.tls = true)
    (hc : s.stage c = .starting)
    (hready : ready = (cs.erase c).map .connection ++ q.toList.map .acceptLoop) :
    Inv (Server.setStage { s with ready := ready } c .handshaking) (cs.erase c) q where
  booked := by
    have hb := h.booked c
    rw [hc] at hb
    refine h.rebook c rfl ⟨?_, ?_, ?_, ?_⟩ fun d hd => ⟨update_of_ne hd .., Iff.rfl, Iff.rfl, ?_⟩
    · simpa [Server.setStage, Stage.registered] using hb.active
    · simpa [Server.setStage] using hb.pool
    · simp [Server.setStage, h.starting_nodup.mem_erase_iff]
    · simp [Server.setStage, htls]
    · simp [h.starting_nodup.mem_erase_iff, hd]
  conns_eq := h.conns_eq
  active_nodup := h.active_nodup
  pool_nodup := h.pool_nodup
  starting_nodup := h.starting_nodup.erase c
  ready_eq := hready
  queued_iff := h.queued_iff
  fresh d hd := by
    have hdc : d ≠ c := by
      rintro rfl
      cases (h.fresh d hd).symm.trans hc
    exact (update_of_ne hdc ..).trans (h.fresh d hd)

/-- A connection is gone. -/
theorem Inv.leave {conns : ℕ} (h : Inv s cs q) (hc : s.stage c ≠ .starting)
    (hconns : conns = (s.active.erase c).length) :
    Inv { s.setStage c .ended with conns := conns, active := s.active.erase c,
                                   pool := s.pool.erase c } cs q where
  booked := by
    refine h.rebook c rfl ⟨?_, ?_, ?_, ?_⟩ fun d hd => ⟨update_of_ne hd .., ?_, ?_, Iff.rfl⟩
    · simp [Server.setStage, Stage.registered, h.active_nodup.mem_erase_iff]
    · simp [Server.setStage, h.pool_nodup.mem_erase_iff]
    · simpa [Server.setStage, (h.booked c).starting] using hc
    · simp [Server.setStage]
    · simp [h.active_nodup.mem_erase_iff, hd]
    · simp [h.pool_nodup.mem_erase_iff, hd]
  conns_eq := hconns
  active_nodup := h.active_nodup.erase c
  pool_nodup := h.pool_nodup.erase c
  starting_nodup := h.starting_nodup
  ready_eq := h.ready_eq
  queued_iff := h.queued_iff
  fresh d hd := by
    simp only [Server.setStage, update_apply]
    split_ifs
    · rfl
    · exact h.fresh d hd

/-! ## Every step -/

/-- The front of the ready queue: a connection, or the accept loop if no connection is left in
it. -/
theorem Inv.front {job : Job} {rest : List Job} (h : Inv s cs q) (hready : s.ready = job :: rest) :
    (∃ c, job = .connection c ∧ s.stage c = .starting ∧ rest = (cs.erase c).map .connection ++
      q.toList.map .acceptLoop) ∨
      ∃ res, job = .acceptLoop res ∧ cs = [] ∧ q = some res ∧ rest = [] := by
  have heq := h.ready_eq.symm.trans hready
  cases cs with
  | nil =>
    cases q with
    | none => cases heq
    | some res =>
      obtain ⟨rfl, rfl⟩ : Job.acceptLoop res = job ∧ [] = rest := by simpa using heq
      exact .inr ⟨res, rfl, rfl, rfl, rfl⟩
  | cons c cs =>
    obtain ⟨rfl, rfl⟩ : Job.connection c = job ∧ cs.map .connection ++
      q.toList.map .acceptLoop = rest := by
      simpa using heq
    refine .inl ⟨c, rfl, (h.booked c).starting.mp mem_cons_self, ?_⟩
    rw [erase_cons_head]

theorem Inv.onAccept {res : Accepted} (h : Inv s [] (some res)) :
    ∃ cs, Inv (Server.onAccept { s with ready := [] } res) cs none := by
  have hagain : (if s.mode = .running then Loop.armed else .over) ≠ .queued :=
    by split_ifs <;> decide
  cases res with
  | socket c =>
    rw [Server.onAccept]
    split_ifs with hmode hfull
    · exact ⟨[], h.looked (by decide)⟩
    · exact ⟨[], h.looked hagain⟩
    · have hrun : s.mode = .running := not_not.mp hmode
      refine ⟨[c], ?_⟩
      simpa only [Server.acceptAgain, Server.setStage, hrun, if_true, nil_append] using h.admit
  | closed | exhausted => exact ⟨[], h.looked (by decide)⟩
  | failed => exact ⟨[], h.looked hagain⟩

/-- What `drain` does to the connections in `active_`. -/
theorem foldl_requestClose (l : List ℕ) (s : Server) : l.foldl Server.requestClose s =
    { s with
      closing := fun c => s.closing c || decide (c ∈ l)
      stage := fun c => if c ∈ l ∧ s.stage c = .session false then .session true
        else s.stage c } := by
  induction l generalizing s with
  | nil => simp
  | cons d l ih =>
    have hclosing : ∀ c, ((s.requestClose d).closing c || decide (c ∈ l)) = (s.closing c || decide
      (c ∈ d :: l)) := by
      intro c
      by_cases hcd : c = d <;> simp [Server.requestClose, hcd]
    have hstage : ∀ c, (if c ∈ l ∧ (s.requestClose d).stage c = .session false then
      Stage.session true
        else (s.requestClose d).stage c) =
          if c ∈ d :: l ∧ s.stage c = .session false then .session true else s.stage c := by
      intro c
      by_cases hd : s.stage d = .session false <;> by_cases hcd : c = d <;>
        simp [Server.requestClose, hcd, hd]
    rw [foldl_cons, ih]
    simp only [hclosing, hstage]
    rfl

theorem Inv.drain (h : Inv s cs q) : Inv s.drain cs q := by
  rw [Server.drain]
  split_ifs
  · exact h
  · rw [foldl_requestClose]
    refine h.restage fun c => ?_
    dsimp only
    split_ifs with hc
    · exact .inr ⟨by rw [hc.2]; rfl, rfl⟩
    · exact .inl rfl

/-- A connection in `active_` goes on to another stage in it. -/
theorem Inv.setStage {late : ℕ → Bool} (h : Inv s cs q) (hc : (s.stage c).registered = true)
    (hg : g.registered = true) :
    Inv { s.setStage c g with late := late } cs q := by
  refine h.restage fun d => ?_
  simp only [Server.setStage, update_apply]
  split_ifs with hd
  · exact .inr ⟨hd ▸ hc, hg⟩
  · exact .inl rfl

theorem Inv.step {a : Act} (h : Inv s cs q) (hst : step s a = some t) : ∃ cs q, Inv t cs q := by
  cases a with
  | accept res =>
    rw [Accepting.step] at hst
    split_ifs at hst with hok
    obtain rfl := Option.some.inj hst
    have hq : q = none := by
      have hnot := mt h.queued_iff.mpr (by rw [hok.1]; decide)
      simpa using hnot
    subst hq
    refine ⟨cs, some res, { h with ready_eq := ?_, queued_iff := iff_of_true rfl rfl,
                                   fresh := fun c hc => ?_ }⟩
    · rw [h.ready_eq]
      simp
    · obtain rfl := Option.some.inj hc
      exact hok.2
  | resume =>
    rw [Accepting.step] at hst
    cases hready : s.ready with
    | nil =>
      rw [hready] at hst
      cases hst
    | cons job rest =>
      rw [hready] at hst
      rcases h.front hready with ⟨c, rfl, hc, hrest⟩ | ⟨res, rfl, rfl, rfl, rfl⟩
      · obtain rfl := Option.some.inj hst
        refine ⟨cs.erase c, q, ?_⟩
        rw [Server.onStart]
        split_ifs with htls
        · exact h.shake htls hc hrest
        · exact h.register (.inl hc) hrest
      · obtain rfl := Option.some.inj hst
        obtain ⟨cs, hcs⟩ := h.onAccept
        exact ⟨cs, none, hcs⟩
  | wake =>
    rw [Accepting.step] at hst
    split_ifs at hst with hok
    obtain rfl := Option.some.inj hst
    refine ⟨cs, q, { h with queued_iff := ?_ }⟩
    rw [← h.queued_iff, hok]
    refine iff_of_false ?_ (by decide)
    dsimp only [Server.acceptAgain]
    split_ifs <;> decide
  | handshake c ok =>
    rw [Accepting.step] at hst
    split_ifs at hst with hc
    obtain rfl := Option.some.inj hst
    have hcs : c ∉ cs := fun hmem => by cases hc.symm.trans ((h.booked c).starting.mp hmem)
    have hactive : c ∉ s.active := fun hmem => by
      have hreg := (h.booked c).active.mp hmem
      rw [hc] at hreg
      cases hreg
    refine ⟨cs, q, ?_⟩
    rw [Server.onHandshake]
    split_ifs
    · have hready : s.ready = (cs.erase c).map .connection ++ q.toList.map .acceptLoop := by
        rw [erase_of_not_mem hcs, h.ready_eq]
      have hreg := h.register (.inr hc) hready
      rwa [erase_of_not_mem hcs] at hreg
    · have hconns : s.conns = (s.active.erase c).length :=
        by rw [erase_of_not_mem hactive, h.conns_eq]
      have hleave := h.leave (by rw [hc]; decide) hconns
      rwa [erase_of_not_mem hactive] at hleave
  | upgrade | openSession =>
    rw [Accepting.step] at hst
    split_ifs at hst with hc
    obtain rfl := Option.some.inj hst
    exact ⟨cs, q, h.setStage (by rw [hc]; rfl) rfl⟩
  | handlerDone c =>
    rw [Accepting.step] at hst
    split_ifs at hst with hc
    obtain rfl := Option.some.inj hst
    exact ⟨cs, q, h.setStage (by rcases hc with hc | hc <;> rw [hc] <;> rfl) rfl⟩
  | finish c =>
    rw [Accepting.step] at hst
    split_ifs at hst with hc
    obtain rfl := Option.some.inj hst
    have hreg : (s.stage c).registered = true := by rcases hc with hc | hc | hc <;> rw [hc] <;> rfl
    refine ⟨cs, q, h.leave ?_ ?_⟩
    · rcases hc with hc | hc | hc <;> rw [hc] <;> decide
    · rw [length_erase_of_mem ((h.booked c).active.mpr hreg), h.conns_eq]
  | drain =>
    obtain rfl := Option.some.inj hst
    exact ⟨cs, q, h.drain⟩
  | stop =>
    obtain rfl := Option.some.inj hst
    exact ⟨cs, q, h.drain.restage fun _ => .inl rfl⟩

end Cornet.Http.Accepting
