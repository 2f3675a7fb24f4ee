import Cornet.Http.Client.Listening
import Cornet.Http.Progress

/-!
# Http/Client/Termination — every exchange comes to an end

    8 · load + 8 turns are enough for every loop of it

Whatever the peer sends, and however it arrives, an exchange returns or fails: each turn of each of
its loops takes something off what is still to be read.
-/

namespace Cornet.Http.Client.Connection

open Coro

variable {α : Type} {c d : Connection} {n : ℕ}

theorem finishes_breaks {Q : α → Connection → Prop} (e : ReadError) : Finishes (breaks e : Task α) c
    Q :=
  ⟨nofun, fun _ _ heq => nomatch (Prod.mk.inj heq).2⟩

theorem finishes_onIntake {f : Intake → Intake × α} {Q : α → Connection → Prop}
    (h : Q (f c.intake).2 { c with intake := (f c.intake).1 }) : Finishes (onIntake f) c Q := by
  refine ⟨nofun, fun t a heq => ?_⟩
  obtain ⟨rfl, ha⟩ := Prod.mk.inj heq
  exact Except.ok.inj ha ▸ h

/-! ## The header section -/

/-- What the parser says to a turn of `read_headers`. -/
theorem finishes_receive :
    Finishes receive c fun r d => r ≠ .error → r ≠ .upgrade → d.intake.load < c.intake.load := by
  refine (finishes_onIntake (Q := fun r d => c.intake.fill = (d.intake, r)) rfl).bind ?_
  rintro r d hfill
  match r, hfill with
  | .error e, _ => exact finishes_breaks e
  | .ok 0, _ => exact finishes_breaks _
  | .ok (k + 1), hfill =>
    refine finishes_onIntake fun hok hup => ?_
    exact (Intake.toil_got hfill k.succ_ne_zero rfl hok).2 hup

theorem load_accept (r : Result) (c : Connection) : (c.accept r).intake.load = c.intake.load := by
  rw [accept]
  split <;> rfl

theorem finishes_headersTurn {stop needFill : Bool}
    (h : needFill = false → c.parser.hasPendingInput = true) :
    Finishes (headersTurn stop needFill) c fun r d =>
      Sum.elim (fun b => (b = false → d.parser.hasPendingInput = true) ∧
        d.intake.load < c.intake.load)
        (fun _ => d.intake.load < c.intake.load) r := by
  have hfirst : Finishes (if needFill then receive else onIntake Intake.resume) c fun r d =>
      r ≠ .error → r ≠ .upgrade → d.intake.load < c.intake.load := by
    split
    · exact finishes_receive
    · rename_i hfill
      refine finishes_onIntake fun hok hup => ?_
      have hpending := h (by simpa using hfill)
      rw [Parser.hasPendingInput, decide_eq_true_iff] at hpending
      exact (Intake.toil_resume (s := c.intake) rfl hok).2.2 (Nat.sub_ne_zero_of_lt hpending) hup
  refine hfirst.bind fun r d hd => ?_
  cases r with
  | needMore => exact finishes_pure ⟨nofun, hd nofun nofun⟩
  | headersReady | messageReady =>
    refine finishes_get_bind ?_
    split
    · refine ⟨nofun, fun t a heq => ?_⟩
      obtain ⟨rfl, ha⟩ := Prod.mk.inj heq
      obtain rfl := Except.ok.inj ha
      split
      · exact hd nofun nofun
      · exact ⟨fun hb => by simpa using hb, hd nofun nofun⟩
    · exact finishes_modify_bind (finishes_pure ((load_accept _ d).trans_lt (hd nofun nofun)))
  | error => exact finishes_get_bind (finishes_breaks _)
  | upgrade | bodyPaused => exact finishes_breaks _

theorem finishes_readHeaders (m : Server.Method) (stop : Bool) (hn : c.intake.load < n) :
    Finishes (readHeaders n m stop) c fun _ d => d.intake.load ≤ c.intake.load := by
  refine finishes_modify_bind (finishes_get_bind ?_)
  refine finishes_loop
    (I := fun b e => (b = false → e.parser.hasPendingInput = true) ∧ e.intake.load ≤ c.intake.load)
    (μ := fun _ e => e.intake.load) ?_ n _ _ ⟨fun hb => by simpa using hb, le_rfl⟩ hn
  rintro b e ⟨hb, hle⟩
  refine (finishes_headersTurn hb).mono ?_
  rintro (b' | b') f hf
  · exact ⟨⟨hf.1, hf.2.le.trans hle⟩, hf.2⟩
  · exact (show f.intake.load < _ from hf).le.trans hle

/-! ## The body -/

/-- A body that ends with the connection is off the load. -/
theorem finishes_closedBody :
    Finishes closedBody c fun _ d => d.intake.toil < c.intake.toil ∧ d.parser.runLen = 0 := by
  rw [Finishes, closedBody]
  split
  · exact ⟨by rintro ⟨⟩, by rintro _ _ ⟨⟩⟩
  · split
    · rename_i p hfinish
      refine ⟨by rintro ⟨⟩, fun t a heq => ?_⟩
      obtain ⟨rfl, -⟩ := Prod.mk.inj heq
      refine ⟨Intake.toil_lt_of_load (Nat.add_lt_add_left ?_ _), rfl⟩
      rw [Parser.finish] at hfinish
      split at hfinish
      · rename_i rest hin
        obtain rfl := (Prod.mk.inj hfinish).1
        change c.parser.feedLen + rest.length < c.parser.feedLen + c.parser.input.length
        rw [hin]
        exact Nat.lt_succ_self _
      · cases hfinish
    · exact ⟨by rintro ⟨⟩, by rintro _ _ ⟨⟩⟩

/-- Either way a turn of `read_body` leaves less to do. -/
theorem finishes_bodyTurn :
    Finishes bodyTurn c fun r d =>
      Sum.elim (fun _ => d.intake.chore < c.intake.chore)
        (fun l => l ≠ [] → d.intake.chore < c.intake.chore) r := by
  refine finishes_get_bind ?_
  refine (finishes_onIntake (Q := fun turn d => c.intake.Worked (d.intake, turn)) ?_).bind ?_
  · exact c.intake.worked_readTurn _
  · rintro turn d hd
    cases turn with
    | again => exact finishes_pure (Intake.chore_lt_of_toil hd)
    | run l =>
      refine finishes_pure fun _ => ?_
      obtain ⟨htoil, hrun, hrun'⟩ := hd
      rw [Intake.chore, Intake.chore, htoil, if_pos hrun, if_neg hrun']
      omega
    | done l =>
      have hlt : l ≠ [] → d.intake.chore < c.intake.chore :=
        fun hl => Intake.chore_lt_of_toil (hd hl).1
      dsimp only
      split
      · exact finishes_modify_bind (finishes_pure hlt)
      · exact finishes_pure hlt
    | eof =>
      refine finishes_closedBody.bind ?_
      rintro l e ⟨he, -⟩
      exact finishes_pure fun _ => Intake.chore_lt_of_toil (lt_of_lt_of_le he hd)
    | failed e => exact finishes_breaks e

theorem finishes_readBody (hn : c.intake.chore < n) :
    Finishes (readBody n) c fun l d => l ≠ [] → d.intake.chore < c.intake.chore := by
  refine finishes_get_bind ?_
  split
  · refine finishes_loop (I := fun _ d => d.intake.chore ≤ c.intake.chore)
      (μ := fun _ d => d.intake.chore) ?_ n () c le_rfl hn
    rintro _ d hd
    refine finishes_bodyTurn.mono ?_
    rintro (u | l) e he
    · exact ⟨(show e.intake.chore < _ from he).le.trans hd, he⟩
    · exact fun hl => (he hl).trans_le hd
  · exact finishes_fail _

theorem finishes_gatherTurn (hn : c.intake.chore < n) :
    Finishes (gatherTurn n) c fun r d =>
      Sum.elim (fun _ => d.intake.chore < c.intake.chore) (fun _ => True) r := by
  refine (finishes_readBody hn).bind fun l d hd => ?_
  split
  · exact finishes_pure trivial
  · rename_i hl
    refine finishes_get_bind ?_
    split
    · exact finishes_modify_bind (finishes_pure (hd hl))
    · exact finishes_breaks _

theorem finishes_reservedTurn :
    Finishes reservedTurn c fun r d =>
      Sum.elim (fun _ => d.intake.toil < c.intake.toil) (fun _ => True) r := by
  refine (finishes_onIntake
    (Q := fun turn d => c.intake.Worked (d.intake, turn) ∧ ∀ l, turn ≠ .run l)
      c.intake.worked_feedTurn).bind ?_
  rintro turn d ⟨hd, hrun⟩
  cases turn with
  | again => exact finishes_pure hd
  | run l => exact absurd rfl (hrun l)
  | done l => exact finishes_modify_bind (finishes_pure trivial)
  | eof => exact finishes_modify_bind (finishes_breaks _)
  | failed e => exact finishes_breaks e

theorem finishes_aggregateBody (hn : c.intake.chore < n) :
    Finishes (aggregateBody n) c fun _ _ => True := by
  refine finishes_get_bind ?_
  split_ifs
  · exact finishes_pure trivial
  · refine finishes_loop (I := fun _ d => d.intake.toil ≤ c.intake.toil)
      (μ := fun _ d => d.intake.toil)
      ?_ n () c le_rfl (c.intake.toil_le_chore.trans_lt hn)
    rintro _ d hd
    refine finishes_reservedTurn.mono ?_
    rintro (u | u) e he
    · exact ⟨(show e.intake.toil < _ from he).le.trans hd, he⟩
    · trivial
  · refine finishes_loop (I := fun _ d => d.intake.chore ≤ c.intake.chore)
      (μ := fun _ d => d.intake.chore)
      ?_ n () c le_rfl hn
    rintro _ d hd
    refine (finishes_gatherTurn (hd.trans_lt hn)).mono ?_
    rintro (u | u) e he
    · exact ⟨(show e.intake.chore < _ from he).le.trans hd, he⟩
    · trivial

/-! ## The exchange -/

theorem finishes_prepare (stream : Bool) :
    Finishes (prepare stream) c fun _ d => d.intake.load = c.intake.load := by
  rw [Finishes, prepare]
  split
  · rename_i d hd
    obtain ⟨b, sink, rfl⟩ := eq_of_prepareBody hd
    refine ⟨by rintro ⟨⟩, fun t a heq => ?_⟩
    obtain ⟨rfl, -⟩ := Prod.mk.inj heq
    rfl
  · exact ⟨by rintro ⟨⟩, by rintro _ _ ⟨⟩⟩

theorem finishes_writeStaged (l : List Byte) :
    Finishes (writeStaged l) c fun _ d => d.intake = c.intake := by
  rw [Finishes, writeStaged]
  split
  · refine ⟨by rintro ⟨⟩, fun t a heq => ?_⟩
    obtain ⟨rfl, -⟩ := Prod.mk.inj heq
    rfl
  · exact ⟨by rintro ⟨⟩, by rintro _ _ ⟨⟩⟩

theorem finishes_takeResponse : Finishes takeResponse c fun _ _ => True := by
  rw [Finishes, takeResponse]
  split <;> exact ⟨by rintro ⟨⟩, fun _ _ _ => trivial⟩

theorem load_ensureNode (c : Connection) : c.ensureNode.intake.load ≤ c.intake.load := by
  rw [ensureNode]
  split
  · exact le_rfl
  · -- a window into the old buffers is dropped
    change c.intake.net.inbox.length + (0 + c.parser.input.length) ≤
      c.intake.net.inbox.length + (c.parser.feedLen + c.parser.input.length)
    omega

theorem finishes_sendHead (req : Request) (chunkedUpload headOnly : Bool) :
    Finishes (sendHead req chunkedUpload headOnly) c fun _ d => d.intake.load = c.intake.load := by
  refine finishes_modify_bind (finishes_get_bind ?_)
  split
  · exact finishes_breaks _
  · exact (finishes_writeStaged _).mono fun _ d hd => (congrArg Intake.load hd).trans rfl

theorem finishes_sendAndReadHeaders (req : Request) (hn : c.intake.load < n) :
    Finishes (sendAndReadHeaders n req) c fun _ d => d.intake.load ≤ c.intake.load := by
  rw [sendAndReadHeaders]
  split
  · exact finishes_fail _
  · refine finishes_modify_bind ((finishes_sendHead req false _).bind fun _ d hd => ?_)
    have hd : d.intake.load ≤ c.intake.load := hd.le.trans (load_ensureNode c)
    have hread (e : Connection) (stop : Bool) (he : e.intake.load ≤ c.intake.load) :
        Finishes (readHeaders n req.method stop) e fun _ f => f.intake.load ≤ c.intake.load :=
      (finishes_readHeaders _ stop (he.trans_lt hn)).mono fun _ f hf => hf.trans he
    split
    · refine (hread d true hd).bind fun b e he => ?_
      split
      · refine (finishes_writeStaged _).bind fun _ f hf => ?_
        exact (hread f false (hf ▸ he)).bind fun _ g hg => finishes_pure hg
      · exact ⟨nofun, fun t a heq => (Prod.mk.inj heq).1 ▸ he⟩
    · exact (hread d false hd).bind fun _ e he => finishes_pure he

/-- **An exchange comes to an end.** -/
theorem finishes_exchange (req : Request) (hn : 8 * c.intake.load + 7 < n) :
    Finishes (exchange n req) c fun _ _ => True := by
  refine (finishes_sendAndReadHeaders req (by omega)).bind fun _ d hd => ?_
  refine (finishes_prepare false).bind fun _ e he => ?_
  have hchore := e.intake.chore_le
  exact (finishes_aggregateBody (by omega)).bind fun _ _ _ => finishes_takeResponse

theorem finishes_beginExchange (req : Request) (hn : 8 * c.intake.load + 7 < n) :
    Finishes (beginExchange n req) c fun _ _ => True := by
  refine (finishes_sendAndReadHeaders req (by omega)).bind fun _ d hd => ?_
  exact (finishes_prepare true).mono fun _ _ _ => trivial

end Cornet.Http.Client.Connection
