import Cornet.Http.Client.Connection
import Cornet.Http.Reading

/-!
# Http/Client/Listening — what reading leaves alone

    recv ─▸ bytes: `responded_` is set, and stays set until the next request

A read writes nothing, and whatever it takes from the peer shows in `responded_`: a connection that
has not responded has the inbox it had.  This holds wherever a read ends, so an exchange needs no
more than a look at the flag to know that nothing came.
-/

namespace Cornet.Http

namespace Intake

/-- One step of a receiving side: bytes come in, or the parser goes on with what is there. -/
inductive Step (s : Intake) : Intake → Prop
  | fill : Step s s.fill.1
  | still {t : Intake} :
      t.net = s.net → t.responded = s.responded → t.parser.limits = s.parser.limits →
      t.parser.response = s.parser.response → Step s t

/-- `t` is `s` after some reading. -/
abbrev Steps : Intake → Intake → Prop := Relation.ReflTransGen Step

theorem steps_fill (s : Intake) : Steps s s.fill.1 := .single .fill

theorem steps_pump (s : Intake) {p : Parser} (hlimits : p.limits = s.parser.limits)
    (hresponse : p.response = s.parser.response) : Steps s { s with parser := p.pump.1 } := by
  obtain ⟨h₁, h₂⟩ := Parser.limits_pump (p := p)
  exact .single (.still rfl rfl (h₁.trans hlimits) (h₂.trans hresponse))

theorem steps_execute (s : Intake) (off len : ℕ) : Steps s (s.execute off len).1 :=
  steps_pump s rfl rfl

theorem steps_resume (s : Intake) : Steps s s.resume.1 := steps_pump s rfl rfl

theorem steps_refill (s : Intake) : Steps s s.refill.1 := by
  have hrewind : Step s (s.setHead (s.head.rewindTo s.bodyWindow)) := .still rfl rfl rfl rfl
  exact .head hrewind (steps_fill _)

theorem steps_readMore (s : Intake) : Steps s s.readMore.1 := by
  have hfill := steps_refill s
  rw [readMore]
  split <;> rename_i heq <;> rw [heq] at hfill
  · exact hfill
  · exact hfill
  · rename_i t n _
    have hexec := hfill.trans (steps_execute t t.bodyWindow n)
    split <;> rename_i heq' <;> rw [heq'] at hexec
    · exact hexec
    · exact hexec.tail (.still rfl rfl rfl rfl)
    · exact hexec

theorem steps_feedMore (s : Intake) : Steps s s.feedMore.1 := by
  have hfill := steps_refill s
  rw [feedMore]
  split <;> rename_i heq <;> rw [heq] at hfill
  · exact hfill
  · exact hfill
  · rename_i t n _
    have hexec := hfill.trans (steps_execute t t.bodyWindow n)
    split <;> rename_i heq' <;> rw [heq'] at hexec <;> exact hexec

theorem steps_readTurn (s : Intake) (complete : Bool) : Steps s (s.readTurn complete).1 := by
  have hresume := steps_resume s
  rw [readTurn]
  split_ifs
  · exact .single (.still rfl rfl rfl rfl)
  · exact .refl
  · split <;> rename_i heq <;> rw [heq] at hresume
    · exact hresume
    · exact hresume
    · exact hresume.trans (steps_readMore _)
    · exact hresume

theorem steps_feedTurn (s : Intake) : Steps s s.feedTurn.1 := by
  have hresume := steps_resume s
  rw [feedTurn]
  split <;> rename_i heq <;> rw [heq] at hresume
  · exact hresume
  · exact hresume
  · exact hresume.trans (steps_feedMore _)
  · exact hresume

/-- A side that has still received nothing has all of its inbox ahead. -/
def Hears (s t : Intake) : Prop :=
  t.responded = false → s.responded = false ∧ t.net.inbox = s.net.inbox

theorem Hears.refl (s : Intake) : Hears s s := fun h => ⟨h, rfl⟩

variable {s t u : Intake}

theorem Hears.trans (h : Hears s t) (h' : Hears t u) : Hears s u := by
  intro hu
  obtain ⟨ht, hinbox⟩ := h' hu
  obtain ⟨hs, hinbox'⟩ := h ht
  exact ⟨hs, hinbox.trans hinbox'⟩

theorem hears_fill (s : Intake) : Hears s s.fill.1 := by
  have hfill := filled_fill s
  generalize s.fill = r at hfill
  cases hfill with
  | full _ => exact .refl s
  | fails _ hinbox _ => exact fun h => ⟨h, hinbox⟩
  | eof hnil _ hinbox _ => exact fun h => ⟨h, hinbox.trans hnil.symm⟩
  | got => exact nofun

theorem Steps.hears (h : Steps s t) : Hears s t := by
  induction h with
  | refl => exact .refl s
  | tail _ hstep ih =>
    cases hstep with
    | fill => exact ih.trans (hears_fill _)
    | still hnet hresp => exact ih.trans fun h => ⟨hresp ▸ h, congrArg Net.inbox hnet⟩

end Intake

namespace Client.Connection

open Coro

/-- `d` is `c` after some reading. -/
structure Reading (c d : Connection) : Prop where
  wire_eq : d.wire = c.wire
  opt_eq : d.opt = c.opt
  headOut_eq : d.headOut = c.headOut
  steps : c.intake.Steps d.intake

instance : IsPreorder Connection Reading where
  refl _ := ⟨rfl, rfl, rfl, .refl⟩
  trans _ _ _ h h' :=
    ⟨h'.wire_eq.trans h.wire_eq, h'.opt_eq.trans h.opt_eq, h'.headOut_eq.trans h.headOut_eq,
      h.steps.trans h'.steps⟩

/-- A change of anything else. -/
theorem Reading.of_eq {c d : Connection} (hwire : d.wire = c.wire) (hopt : d.opt = c.opt)
    (hout : d.headOut = c.headOut) (hnet : d.intake.net = c.intake.net)
    (hresp : d.intake.responded = c.intake.responded) (hlimits : d.parser.limits = c.parser.limits)
    (hresponse : d.parser.response = c.parser.response) : c.Reading d :=
  ⟨hwire, hopt, hout, .single (.still hnet hresp hlimits hresponse)⟩

/-- What can be said of the inbox afterwards. -/
structure Listens (c d : Connection) : Prop where
  wire_eq : d.wire = c.wire
  opt_eq : d.opt = c.opt
  hears : c.intake.Hears d.intake

theorem Reading.listens {c d : Connection} (h : c.Reading d) : c.Listens d :=
  ⟨h.wire_eq, h.opt_eq, h.steps.hears⟩

variable {α : Type} (n : ℕ)

theorem reading_breaks (e : ReadError) : Moves Reading (breaks e : Task α) :=
  fun _ => .of_eq rfl rfl rfl rfl rfl rfl rfl

theorem reading_onIntake {f : Intake → Intake × α} (h : ∀ s, Intake.Steps s (f s).1) :
    Moves Reading (onIntake f) :=
  fun c => ⟨rfl, rfl, rfl, h c.intake⟩

theorem reading_receive : Moves Reading receive := by
  refine (reading_onIntake Intake.steps_fill).bind fun r => ?_
  split
  · exact reading_breaks _
  · exact reading_breaks _
  · exact reading_onIntake fun s => s.steps_execute _ _

theorem reading_accept (r : Result) (c : Connection) : c.Reading (c.accept r) := by
  rw [accept]
  split <;> exact .of_eq rfl rfl rfl rfl rfl rfl rfl

theorem reading_onHeaders (stop : Bool) (r : Result) : Moves Reading (onHeaders stop r) := by
  cases r with
  | needMore => exact moves_pure _
  | headersReady | messageReady =>
    refine moves_get.bind fun c => ?_
    split
    · exact fun c => .of_eq rfl rfl rfl rfl rfl rfl rfl
    · exact (moves_modify (reading_accept _)).bind fun _ => moves_pure _
  | error => exact moves_get.bind fun _ => reading_breaks _
  | upgrade | bodyPaused => exact reading_breaks _

theorem reading_headersTurn (stop needFill : Bool) : Moves Reading (headersTurn stop needFill) := by
  refine Moves.bind ?_ (reading_onHeaders stop)
  split
  · exact reading_receive
  · exact reading_onIntake Intake.steps_resume

theorem reading_readHeaders (m : Server.Method) (stop : Bool) : Moves Reading
    (readHeaders n m stop) := by
  refine (moves_modify fun c => .of_eq rfl rfl rfl rfl rfl rfl rfl).bind fun _ =>
    moves_get.bind fun c => ?_
  exact moves_loop (reading_headersTurn stop) n _

theorem reading_closedBody : Moves Reading closedBody := by
  intro c
  have hfinish : c.parser.finish.1.limits = c.parser.limits ∧
    c.parser.finish.1.response = c.parser.response := by
    rw [Parser.finish]
    split <;> exact ⟨rfl, rfl⟩
  rw [closedBody]
  split_ifs
  · exact .of_eq rfl rfl rfl rfl rfl rfl rfl
  · split <;> rename_i heq <;> rw [heq] at hfinish
    · exact .of_eq rfl rfl rfl rfl rfl hfinish.1 hfinish.2
    · exact .of_eq rfl rfl rfl rfl rfl hfinish.1 hfinish.2

theorem reading_bodyTurn : Moves Reading bodyTurn := by
  refine moves_get.bind fun c => (reading_onIntake (Intake.steps_readTurn · _)).bind fun r => ?_
  cases r with
  | again | run => exact moves_pure _
  | done tail =>
    dsimp only
    split
    · exact (moves_modify fun c => .of_eq rfl rfl rfl rfl rfl rfl rfl).bind fun _ => moves_pure _
    · exact moves_pure _
  | eof => exact reading_closedBody.bind fun _ => moves_pure _
  | failed e => exact reading_breaks e

theorem reading_readBody : Moves Reading (readBody n) := by
  refine moves_get.bind fun c => ?_
  split
  · exact moves_loop (fun _ => reading_bodyTurn) n ()
  · exact moves_fail _

theorem reading_gatherTurn : Moves Reading (gatherTurn n) := by
  refine (reading_readBody n).bind fun run => ?_
  split
  · exact moves_pure _
  · refine moves_get.bind fun c => ?_
    split
    · exact (moves_modify fun c => .of_eq rfl rfl rfl rfl rfl rfl rfl).bind fun _ => moves_pure _
    · exact reading_breaks _

theorem reading_reservedTurn : Moves Reading reservedTurn := by
  refine (reading_onIntake Intake.steps_feedTurn).bind fun r => ?_
  cases r with
  | done tail =>
    exact (moves_modify fun c => .of_eq rfl rfl rfl rfl rfl rfl rfl).bind fun _ => moves_pure _
  | failed e => exact reading_breaks e
  | eof =>
    exact (moves_modify fun c => .of_eq rfl rfl rfl rfl rfl rfl rfl).bind fun _ => reading_breaks _
  | again | run => exact moves_pure _

theorem reading_aggregateBody : Moves Reading (aggregateBody n) := by
  refine moves_get.bind fun c => ?_
  split_ifs
  · exact moves_pure _
  · exact moves_loop (fun _ => reading_reservedTurn) n ()
  · exact moves_loop (fun _ => reading_gatherTurn n) n ()

/-- `prepare_body` is about the body buffer only. -/
theorem eq_of_prepareBody {c d : Connection} {stream : Bool} (h : c.prepareBody stream = .ok d) :
    ∃ b sink, d = (({ c with streaming := stream } : Connection).setBody b).setSink sink := by
  rw [prepareBody] at h
  dsimp only at h
  split at h
  · exact ⟨c.parser.io.body, false, (Except.ok.inj h).symm⟩
  · split at h
    · split at h
      · cases h
      · split at h
        · exact ⟨_, true, (Except.ok.inj h).symm⟩
        · cases h
    · split at h
      · exact ⟨_, false, (Except.ok.inj h).symm⟩
      · cases h

theorem reading_prepare (stream : Bool) : Moves Reading (prepare stream) := by
  intro c
  rw [prepare]
  split
  · rename_i d hd
    obtain ⟨b, sink, rfl⟩ := eq_of_prepareBody hd
    exact .of_eq rfl rfl rfl rfl rfl rfl rfl
  · exact .of_eq rfl rfl rfl rfl rfl rfl rfl

theorem reading_takeResponse : Moves Reading takeResponse := by
  intro c
  rw [takeResponse]
  split_ifs <;> exact .of_eq rfl rfl rfl rfl rfl rfl rfl

/-- What is read behind the header section. -/
theorem reading_finish : Moves Reading (do prepare false; aggregateBody n; takeResponse) :=
  (reading_prepare false).bind fun _ => (reading_aggregateBody n).bind fun _ => reading_takeResponse

variable (m : Server.Method) (stop : Bool)

theorem listens_breaks (e : ReadError) : Moves Listens (breaks e : Task α) :=
  (reading_breaks e).mono fun _ _ h => h.listens

theorem listens_readHeaders : Moves Listens (readHeaders n m stop) :=
  (reading_readHeaders n m stop).mono fun _ _ h => h.listens

theorem listens_prepare : Moves Listens (prepare stop) :=
  (reading_prepare stop).mono fun _ _ h => h.listens

theorem listens_finish : Moves Listens (do prepare false; aggregateBody n; takeResponse) :=
  (reading_finish n).mono fun _ _ h => h.listens

end Client.Connection

end Cornet.Http
