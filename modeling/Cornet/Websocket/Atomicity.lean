import Cornet.Websocket.Duplex

/-!
# Websocket/Atomicity — frames on the wire of a session with a reader and a writer

    writer:  81 02 ┊      ┊ 61 62            out:  81 02 8a 00 …
    reader:        ┊ 8a 00┊

Reader and writer are two writers on one stream (`Duplex.writers`); nothing in the session keeps
their frames apart.  They stay whole as long as no frame is started while the other coroutine's is
partly out or after one was given up part-way, and no write is cut short while the other has one
under way (`atomic_of_exclusive`).  A Pong that is due between two parts of a message breaks the
stream (`pong_splits_message`).
-/

namespace Cornet.Websocket

open Writers (left partly)

/-! ## The session as two writers -/

namespace Duplex

def writers (s : Duplex) : Writers Side Byte where
  progress r := (s.pc r).progress
  out := s.out
  started := s.started.map Prod.snd
  broken := s.broken

/-- The step starts a frame. -/
def starts (s : Duplex) (a : Act) : Bool :=
  (s.step a).any fun t => t.started.length != s.started.length

/-- The step is a write cut short. -/
def cuts (s : Duplex) : Act → Bool
  | .complete r (.wrote w) =>
    match s.pc r with
    | .writing frame done _ => w != 0 && done + w != frame.length
    | _ => false
  | _ => false

/-- A frame is started only while the other coroutine's is not partly out and none was given up
part-way; a write is cut short only while the other coroutine has none under way. -/
def exclusive (s : Duplex) (a : Act) : Bool :=
  (!s.starts a || !partly (s.pc a.side.other).progress && !s.broken) &&
    (!s.cuts a || (s.pc a.side.other).progress == none)

variable {s t : Duplex} {r : Side} {pc : Pc}

/-- A coroutine that goes elsewhere changes its own progress only. -/
theorem writers_eq (h : t.pc = Function.update s.pc r pc) : t.writers =
    { progress := Function.update s.writers.progress r pc.progress
      out := t.out
      started := t.started.map Prod.snd
      broken := t.broken } := by
  rw [writers, h]
  congr
  funext r'
  exact Function.apply_update (fun _ => Pc.progress) s.pc r pc r'

theorem writers_goto_of_eq (h : pc.progress = (s.pc r).progress) : (s.goto r
    pc).writers = s.writers := by
  rw [writers_eq rfl, h]
  exact congrArg (fun p => ({ s.writers with progress := p } : Writers Side Byte))
    (Function.update_eq_self r s.writers.progress)

theorem Side.eq_other {r r' : Side} (h : r' ≠ r) : r' = r.other := by
  cases r <;> cases r' <;> first | rfl | exact (h rfl).elim

theorem progress_of_writing {frame : List Byte} {done : ℕ} {next : Next}
    (hpc : s.pc r = .writing frame done next) : s.writers.progress r = some (frame, done) := by
  change (s.pc r).progress = _
  rw [hpc]
  rfl

/-- The operation fails, and its frame with it. -/
theorem step_failed {frame : List Byte} {done : ℕ} {next : Next}
    (hpc : s.pc r = .writing frame done next) (hpc' : pc.progress = none)
    (ht : t.pc = Function.update s.pc r pc) (hout : t.out = s.out)
      (hstarted : t.started = s.started)
    (hbroken : t.broken = (s.broken || done != 0)) : s.writers.Step (.failed r) t.writers := by
  rw [writers_eq ht, hpc', hout, hstarted, hbroken]
  exact .failed (progress_of_writing hpc)

/-- It takes bytes of its frame. -/
theorem step_wrote {frame : List Byte} {done w : ℕ} {next : Next}
    (hpc : s.pc r = .writing frame done next) (hw : w ≠ 0) (hle : done + w ≤ frame.length)
    (ht : t.pc = Function.update s.pc r (.written frame done (some w) next))
    (hout : t.out = s.out ++ (frame.drop done).take w) (hstarted : t.started = s.started)
    (hbroken : t.broken = s.broken) : s.writers.Step (.wrote r w) t.writers := by
  rw [writers_eq ht, Pc.progress, if_neg hw, hout, hstarted, hbroken]
  exact .wrote (progress_of_writing hpc) hle

/-- A write that is cut short leaves the other coroutine with none under way. -/
theorem exclusive_wrote {frame : List Byte} {done w : ℕ} {next : Next}
    (hpc : s.pc r = .writing frame done next) (hw : w ≠ 0)
    (h : s.exclusive (.complete r (.wrote w)) = true) : s.writers.Exclusive (.wrote r w) := by
  intro f d hfd hlt j hj
  rw [progress_of_writing hpc] at hfd
  cases hfd
  have hcuts : s.cuts (.complete r (.wrote w)) = true := by
    simp only [cuts, hpc, Bool.and_eq_true, bne_iff_ne]
    exact ⟨hw, hlt.ne⟩
  obtain rfl := Side.eq_other hj
  simp only [exclusive, hcuts, Bool.and_eq_true, Bool.not_true, Bool.false_or, beq_iff_eq] at h
  exact h.2

/-- **What the kernel does** is a move of the writers, within their rules if within the
session's. -/
theorem move_of_complete {answer : Answer} (h : s.complete r answer = some t) :
    t.writers = s.writers ∨ ∃ move, s.writers.Step move t.writers ∧
      (s.exclusive (.complete r answer) = true → s.writers.Exclusive move) := by
  unfold complete at h
  split at h
  · rename_i frame done next w hpc
    split at h
    · rename_i hle
      cases h
      by_cases hw : w = 0
      · subst hw
        refine .inr ⟨.failed r, step_failed hpc rfl rfl ?_ rfl ?_, fun _ => trivial⟩
        · simp
        · simp
      · refine .inr ⟨.wrote r w, step_wrote hpc hw hle rfl rfl rfl ?_, exclusive_wrote hpc hw⟩
        simp [hw]
    · cases h
  · rename_i frame done next hpc
    cases h
    exact .inr ⟨.failed r, step_failed hpc rfl rfl rfl rfl rfl, fun _ => trivial⟩
  · rename_i l hpc
    split at h
    · cases h
      exact .inl (writers_goto_of_eq (by rw [hpc]; rfl))
    · cases h
  · rename_i hpc
    cases h
    exact .inl (writers_goto_of_eq (by rw [hpc]; rfl))
  · cases h

/-- **What a coroutine does** is a move of the writers, within their rules if within the
session's. -/
theorem move_of_segment {a : Act} {concerns : Bool} (hstep : s.step a = some t)
    (h : Segment s a.side concerns t) :
    t.writers = s.writers ∨ ∃ move, s.writers.Step move t.writers ∧
      (s.exclusive a = true → s.writers.Exclusive move) := by
  cases h with
  | quiet pc hpc hprogress _ hout hstarted hbroken _ =>
    refine .inl ?_
    rw [writers_eq hpc, hprogress, hout, hstarted, hbroken]
    exact congrArg (fun p => ({ s.writers with progress := p } : Writers Side Byte))
      (Function.update_eq_self a.side s.writers.progress)
  | start op frame next hframe hidle hpc hout hstarted hbroken _ =>
    refine .inr ⟨.start a.side frame, ?_, fun hex => ?_⟩
    · rw [writers_eq hpc, hout, hstarted, hbroken, List.map_append, List.map_singleton]
      exact .start hidle hframe
    · have hstarts : s.starts a = true := by
        rw [starts, hstep, Option.any_some, hstarted]
        simp
      simp only [exclusive, hstarts, Bool.and_eq_true, Bool.not_true, Bool.false_or,
        Bool.not_eq_true'] at hex
      refine ⟨fun j hj => ?_, hex.1.2⟩
      obtain rfl := Side.eq_other hj
      exact hex.1.1

/-- **The session refines the writers.** -/
theorem move_of_step {a : Act} (h : s.step a = some t) :
    t.writers = s.writers ∨ ∃ move, s.writers.Step move t.writers ∧
      (s.exclusive a = true → s.writers.Exclusive move) := by
  cases a with
  | complete r answer => exact move_of_complete h
  | _ => exact move_of_segment h (segment_step nofun h)

/-- What is out is a prefix of a concatenation of frames the session started, each used at most
once. -/
def Atomic (s : Duplex) : Prop :=
  ∃ fs : List (List Byte), fs.Subperm (s.started.map Prod.snd) ∧ s.out <+: fs.flatten

end Duplex

open Duplex

instance : Fintype Side := ⟨{.reader, .writer}, fun r => by cases r <;> simp⟩

/-- **Frames stay whole** along every run in which no frame is started while the other coroutine's
is partly out or after one was given up part-way, and no write is cut short while the other
coroutine has one under way. -/
theorem atomic_of_exclusive {session : Session} {as : List Act} {s : Duplex}
    (h : Run Duplex.step (fun s a => s.exclusive a = true) { session := session } as
      s) : s.Atomic := by
  refine (h.invariant (I := fun s : Duplex => s.writers.Sound) Writers.sound_init ?_).atomic
  intro s a t hs hok hstep
  rcases move_of_step hstep with heq | ⟨move, hmove, hex⟩
  · rwa [heq]
  · exact hs.step (hex hok) hmove

/-- A server's session. -/
def served : Session := Session.new .server (16 <<< 20) (64 <<< 10) [] 0

/-- A reader waits; a writer's message goes out in two parts, and a Ping arrives and is answered
when both are out. -/
def pongAfter : List Act :=
  [.recv, .turn false, .send .text [97, 98],
   .complete .writer (.wrote 2), .resume .writer, .complete .writer (.wrote 2),
   .complete .reader (.got [0x89, 0x80, 0, 0, 0, 0]), .resume .reader, .turn false,
   .complete .reader (.wrote 2)]

theorem atomic_of_exclusive_pongAfter :
    ∃ s, Run Duplex.step (fun s a => s.exclusive a = true) { session := served } pongAfter s ∧
      s.out = [0x81, 2, 97, 98, 0x8a, 0] ∧ s.Atomic := by
  obtain ⟨s, hs, hout⟩ : ∃ s, Run Duplex.step (fun s a => s.exclusive a = true)
    { session := served } pongAfter s ∧
      s.out = [0x81, 2, 97, 98, 0x8a, 0] := Run.exists_of_mem (by decide +kernel)
  exact ⟨s, hs, hout, atomic_of_exclusive hs⟩

/-- The same, with the Ping arriving between the two parts. -/
def pongBetween : List Act :=
  [.recv, .turn false, .send .text [97, 98],
   .complete .writer (.wrote 2),
   .complete .reader (.got [0x89, 0x80, 0, 0, 0, 0]), .resume .reader, .turn false,
   .complete .reader (.wrote 2)]

/-- **The Pong goes out inside the message**, after its header. -/
theorem pong_splits_message :
    ∃ s, Run Duplex.step (fun _ _ => True) { session := served } pongBetween s ∧
      s.out = [0x81, 2, 0x8a, 0] ∧ ¬ s.Atomic := by
  obtain ⟨s, hs, hout, hstarted⟩ : ∃ s, Run Duplex.step (fun _ _ => True) { session := served }
    pongBetween s ∧
      s.out = [0x81, 2, 0x8a, 0] ∧ s.started = [(.text, [0x81, 2, 97, 98]), (.pong, [0x8a, 0])] :=
    Run.exists_of_mem (by decide +kernel)
  refine ⟨s, hs, hout, ?_⟩
  rintro ⟨fs, hsub, hpre⟩
  rw [hout] at hpre
  rw [hstarted] at hsub
  rcases fs with _ | ⟨f, fs⟩
  · simp at hpre
  · -- the first frame is one of the two, and neither begins like the stream
    have hf := hsub.subset List.mem_cons_self
    rw [List.flatten_cons] at hpre
    rcases List.mem_pair.mp hf with rfl | rfl
    · simp at hpre
    · simp at hpre

end Cornet.Websocket
