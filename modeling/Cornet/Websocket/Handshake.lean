import Cornet.Websocket.Duplex

/-!
# Websocket/Handshake — one Close frame, and what may follow it

    close():  state_ Open ──Close started──▸ Open ⋯ written ──▸ CloseSent
                                  └── the window ──┘

`close` records `CloseSent` when its frame has been written, so between the start of the frame and
then (or for good, if the write fails) the session still takes itself for open: a `send` starts a
data frame, a Close of the peer is echoed by a second Close, and the writer then overwrites
`CloseReceived`.  The handshake is right along every run in which nothing that concerns it happens
in that window (`handshake_of_settled`).
-/

namespace Cornet.Websocket

open List

namespace Duplex

/-- A Close frame has been started and `state_` is still `Open`. -/
def window (s : Duplex) : Bool := s.started.any (·.1 == .close) && s.session.state == .opened

/-- In the window there is no call of `send` or `close`, no Close of the peer and no violation. -/
def settled (s : Duplex) (a : Act) : Bool := !(s.window && s.concernsClose a)

/-- There is one Close frame at most, and no data frame is started after it. -/
def OneClose (started : List (Opcode × List Byte)) : Prop :=
  started.Pairwise fun p q => p.1 = .close → q.1 ≠ .close ∧ q.1.isData = false

/-- What holds along every run that settles its closing. -/
structure Closing (s : Duplex) : Prop where
  oneClose : OneClose s.started
  window : ∀ r, (s.pc r).closing = true → s.window = true
  unique : ∀ r r', (s.pc r).closing = true → (s.pc r').closing = true → r = r'

variable {s t : Duplex} {r : Side} {pc : Pc}

theorem window_iff : s.window = true ↔ (∃ p ∈ s.started, p.1 = .close) ∧
    s.session.state = .opened := by
  simp [window]

theorem closing_of_update {r' : Side} (hpc : t.pc = Function.update s.pc r pc)
    (h : (t.pc r').closing = true) :
    r' = r ∧ pc.closing = true ∨ r' ≠ r ∧ (s.pc r').closing = true := by
  rw [hpc] at h
  by_cases hr : r' = r
  · subst hr
    rw [Function.update_self] at h
    exact .inl ⟨rfl, h⟩
  · rw [Function.update_of_ne hr] at h
    exact .inr ⟨hr, h⟩

/-- Nothing about the handshake changes. -/
theorem Closing.same (h : s.Closing) (hpc : t.pc = Function.update s.pc r pc)
    (hclosing : pc.closing = true → (s.pc r).closing = true) (hstarted : t.started = s.started)
    (hstate : t.session.state = s.session.state) : t.Closing := by
  have hback : ∀ r', (t.pc r').closing = true → (s.pc r').closing = true := by
    intro r' hr'
    rcases closing_of_update hpc hr' with ⟨rfl, hc⟩ | ⟨-, hc⟩
    · exact hclosing hc
    · exact hc
  refine ⟨hstarted ▸ h.oneClose, fun r' hr' => ?_, fun r₁ r₂ h₁ h₂ => h.unique _ _ (hback _ h₁)
    (hback _ h₂)⟩
  have := h.window r' (hback r' hr')
  rwa [window_iff, ← hstarted, ← hstate, ← window_iff] at this

/-- The kernel has no part in the handshake. -/
theorem complete_cases {answer : Answer} (h : s.complete r answer = some t) :
    t.started = s.started ∧ t.session = s.session ∧
      ∃ pc, t.pc = Function.update s.pc r pc ∧ (pc.closing = true → (s.pc r).closing = true) := by
  unfold complete at h
  split at h
  · rename_i frame done next w hpc
    split at h <;> cases h
    refine ⟨rfl, rfl, _, rfl, fun h => ?_⟩
    rw [hpc]
    cases next <;> first | rfl | cases h
  · rename_i frame done next hpc
    cases h
    refine ⟨rfl, rfl, _, rfl, fun h => ?_⟩
    rw [hpc]
    cases next <;> first | rfl | cases h
  · split at h <;> cases h
    exact ⟨rfl, rfl, _, rfl, nofun⟩
  · cases h
    exact ⟨rfl, rfl, _, rfl, nofun⟩
  · cases h

theorem closing_none (hone : OneClose s.started) (h : ∀ r, (s.pc r).closing ≠ true) : s.Closing :=
  ⟨hone, fun r hr => (h r hr).elim, fun r _ hr => (h r hr).elim⟩

theorem Closing.not_closing (h : s.Closing) (hwindow : s.window = false) :
    ∀ r, (s.pc r).closing ≠ true := by
  intro r hr
  cases (h.window r hr).symm.trans hwindow

/-- With no Close frame before it, any frame may follow. -/
theorem OneClose.snoc {started : List (Opcode × List Byte)} (h : OneClose started)
    {p : Opcode × List Byte}
    (hp : (∃ q ∈ started, q.1 = .close) → p.1 ≠ .close ∧ p.1.isData = false) :
    OneClose (started ++ [p]) := by
  refine pairwise_append.mpr ⟨h, pairwise_singleton _ _, fun q hq p' hp' hclose => ?_⟩
  rw [mem_singleton.mp hp']
  exact hp ⟨q, hq, hclose⟩

theorem quiet_cases {concerns closing : Bool} {a b : CloseState} (h : Quiet concerns closing a b) :
    b = a ∨ concerns = true ∧ b = .closeReceived ∨ closing = true ∧ b = .closeSent := by
  cases h <;> simp_all

theorem occasion_cases {concerns : Bool} {op : Opcode} {next : Next} {a b : CloseState}
    (h : Occasion concerns op next a b) :
    (op ≠ .close ∧ op.isData = false ∧ next ≠ .closeSent ∧ b = a) ∨
      concerns = true ∧ a = .opened ∧
        (next ≠ .closeSent ∨ op = .close ∧ next = .closeSent ∧ b = .opened) := by
  cases h with
  | ping | pong => exact .inl ⟨by decide, by decide, by decide, rfl⟩
  | data _ h | echo h => exact .inr ⟨h, rfl, .inl (by decide)⟩
  | close h => exact .inr ⟨h, rfl, .inr ⟨rfl, rfl, rfl⟩⟩

theorem closing_writing {frame : List Byte} {done : ℕ} {next : Next} :
    (Pc.writing frame done next).closing = true ↔ next = .closeSent := by
  cases next <;> simp [Pc.closing]

/-- **A segment within the rule keeps the handshake in order**, and `CloseReceived` for good. -/
theorem Closing.segment (h : s.Closing) {concerns : Bool}
    (hok : concerns = true → s.window = false) (hseg : Segment s r concerns t) :
    t.Closing ∧ (s.session.state = .closeReceived → t.session.state = .closeReceived) := by
  cases hseg with
  | quiet pc hpc _ hclosing _ hstarted _ hstate =>
    rcases quiet_cases hstate with hsame | ⟨hconcerns, hreceived⟩ | ⟨hr, hsent⟩
    · exact ⟨h.same hpc (fun hc => (hclosing hc).1) hstarted hsame, hsame.trans⟩
    · have hnone := h.not_closing (hok hconcerns)
      refine ⟨closing_none (hstarted ▸ h.oneClose) fun r' hr' => ?_, fun _ => hreceived⟩
      rcases closing_of_update hpc hr' with ⟨-, hc⟩ | ⟨-, hc⟩
      · exact hnone r (hclosing hc).1
      · exact hnone r' hc
    · -- the coroutine that closes is the only one, and it is done
      have hopened := (window_iff.mp (h.window r hr)).2
      refine ⟨closing_none (hstarted ▸ h.oneClose) fun r' hr' => ?_, fun hstate => ?_⟩
      · rcases closing_of_update hpc hr' with ⟨-, hc⟩ | ⟨hne, hc⟩
        · cases (hclosing hc).2.symm.trans hsent |>.symm.trans hopened
        · exact hne (h.unique r' r hc hr)
      · cases hopened.symm.trans hstate
  | start op frame next _ _ hpc _ hstarted _ hstate =>
    rcases occasion_cases hstate with ⟨hop, hdata, hnext, hsame⟩ | ⟨hconcerns, hopened, hkind⟩
    · have hback : ∀ r', (t.pc r').closing = true → (s.pc r').closing = true := by
        intro r' hr'
        rcases closing_of_update hpc hr' with ⟨-, hc⟩ | ⟨-, hc⟩
        · exact (hnext (closing_writing.mp hc)).elim
        · exact hc
      refine ⟨⟨?_, fun r' hr' => ?_, fun r₁ r₂ h₁ h₂ => h.unique _ _ (hback _ h₁) (hback _ h₂)⟩,
        hsame.trans⟩
      · exact hstarted ▸ h.oneClose.snoc fun _ => ⟨hop, hdata⟩
      · obtain ⟨⟨p, hp, hclose⟩, hstate⟩ := window_iff.mp (h.window r' (hback r' hr'))
        exact window_iff.mpr ⟨⟨p, hstarted ▸ mem_append_left _ hp, hclose⟩, hsame.trans hstate⟩
    · have hwindow := hok hconcerns
      have hnone := h.not_closing hwindow
      have hfirst : ¬ ∃ p ∈ s.started, p.1 = .close := fun hp => by
        cases (window_iff.mpr ⟨hp, hopened⟩).symm.trans hwindow
      have hone : OneClose t.started := hstarted ▸ h.oneClose.snoc fun hp => (hfirst hp).elim
      refine ⟨?_, fun hstate => by cases hopened.symm.trans hstate⟩
      rcases hkind with hnext | ⟨hop, hnext, hopened'⟩
      · refine closing_none hone fun r' hr' => ?_
        rcases closing_of_update hpc hr' with ⟨-, hc⟩ | ⟨-, hc⟩
        · exact hnext (closing_writing.mp hc)
        · exact hnone r' hc
      · have hr : ∀ r', (t.pc r').closing = true → r' = r := by
          intro r' hr'
          rcases closing_of_update hpc hr' with ⟨rfl, -⟩ | ⟨-, hc⟩
          · rfl
          · exact (hnone r' hc).elim
        refine ⟨hone, fun r' _ => ?_, fun r₁ r₂ h₁ h₂ => (hr r₁ h₁).trans (hr r₂ h₂).symm⟩
        refine window_iff.mpr ⟨⟨(op, frame), ?_, hop⟩, hopened'⟩
        rw [hstarted]
        exact mem_append_right _ mem_cons_self

/-- **A step within the rule keeps the handshake in order**, and `CloseReceived` for good. -/
theorem Closing.step {a : Act} (h : s.Closing) (hok : s.settled a = true)
    (hstep : s.step a = some t) :
    t.Closing ∧ (s.session.state = .closeReceived → t.session.state = .closeReceived) := by
  have hok' : s.concernsClose a = true → s.window = false := by
    intro hconcerns
    simpa [settled, hconcerns] using hok
  cases a with
  | complete r answer =>
    obtain ⟨hstarted, hsession, pc, hpc, hclosing⟩ := complete_cases hstep
    exact ⟨h.same hpc hclosing hstarted (by rw [hsession]), fun hs => by rw [hsession, hs]⟩
  | _ => exact h.segment hok' (segment_step nofun hstep)

theorem closing_start (session : Session) : Closing { session := session } :=
  ⟨List.Pairwise.nil, nofun, nofun⟩

end Duplex

open Duplex

/-- **The closing handshake.**  Along every run with nothing that concerns it in the window, the
session starts at most one Close frame and no data frame after it, and once `CloseReceived` it stays
so. -/
theorem handshake_of_settled {session : Session} {as bs : List Act} {s t : Duplex}
    (h : Run Duplex.step (fun s a => s.settled a = true) { session := session } as s)
    (h' : Run Duplex.step (fun s a => s.settled a = true) s bs t) :
    OneClose t.started ∧ (s.session.state = .closeReceived → t.session.state = .closeReceived) := by
  have hs : s.Closing := h.invariant (closing_start session) fun hs hok hstep =>
    (hs.step hok hstep).1
  have ht : t.Closing ∧ (s.session.state = .closeReceived → t.session.state = .closeReceived) := by
    refine h'.invariant (I := fun t : Duplex => t.Closing ∧
      (s.session.state = .closeReceived → t.session.state = .closeReceived)) ⟨hs, id⟩ ?_
    intro u a v hu hok hstep
    obtain ⟨hv, hkeep⟩ := hu.1.step hok hstep
    exact ⟨hv, fun hr => hkeep (hu.2 hr)⟩
  exact ⟨ht.1.oneClose, ht.2⟩

/-- The writer closes while the reader waits; the peer's Close arrives when ours has been
written. -/
def closeInTurn : List Act :=
  [.recv, .turn false, .close 1000 [],
   .complete .writer (.wrote 4), .resume .writer,
   .complete .reader (.got [0x88, 0x82, 0, 0, 0, 0, 0x03, 0xe8]), .resume .reader, .turn false]

theorem handshake_of_settled_closeInTurn :
    ∃ s t, Run Duplex.step (fun s a => s.settled a = true)
        { session := Session.new .server (16 <<< 20) (64 <<< 10) [] 0 } closeInTurn s ∧
      Run Duplex.step (fun s a => s.settled a = true) s [.recv, .send .text [97]] t ∧
      s.session.state = .closeReceived ∧ OneClose t.started ∧ t.session.state = .closeReceived := by
  have hend : ∃ s ∈ exec Duplex.step (fun s a => s.settled a = true)
      { session := Session.new .server (16 <<< 20) (64 <<< 10) [] 0 } closeInTurn,
      ∃ t ∈ exec Duplex.step (fun s a => s.settled a = true) s [.recv, .send .text [97]],
        s.session.state = .closeReceived := by decide +kernel
  obtain ⟨s, hs, t, ht, hstate⟩ := hend
  have hboth := handshake_of_settled (.of_exec hs) (.of_exec ht)
  exact ⟨s, t, .of_exec hs, .of_exec ht, hstate, hboth.1, hboth.2 hstate⟩

/-- The peer's Close arrives while ours is being written. -/
def closeCrossing : List Act :=
  [.recv, .turn false, .close 1000 [],
   .complete .reader (.got [0x88, 0x82, 0, 0, 0, 0, 0x03, 0xe8]), .resume .reader, .turn false]

/-- **Two Close frames go out**, and the writer takes `CloseReceived` back. -/
theorem closeCrossing_two_closes :
    ∃ s t, Run Duplex.step (fun _ _ => True)
        { session := Session.new .server (16 <<< 20) (64 <<< 10) [] 0 } closeCrossing s ∧
      Run Duplex.step (fun _ _ => True) s [.complete .writer (.wrote 4), .resume .writer] t ∧
      s.session.state = .closeReceived ∧ t.session.state = .closeSent ∧
      t.started.map Prod.fst = [.close, .close] ∧ ¬ OneClose t.started := by
  have hend : ∃ s ∈ exec Duplex.step (fun _ _ => True)
      { session := Session.new .server (16 <<< 20) (64 <<< 10) [] 0 } closeCrossing,
      ∃ t ∈ exec Duplex.step (fun _ _ => True) s [.complete .writer (.wrote 4), .resume .writer],
        s.session.state = .closeReceived ∧ t.session.state = .closeSent ∧
          t.started = [(.close, [0x88, 2, 0x03, 0xe8]), (.close, [0x88, 2, 0x03, 0xe8])] :=
            by decide +kernel
  obtain ⟨s, hs, t, ht, hstate, hstate', hstarted⟩ := hend
  refine ⟨s, t, .of_exec hs, .of_exec ht, hstate, hstate', by rw [hstarted]; rfl, ?_⟩
  rw [hstarted]
  simp [OneClose]

end Cornet.Websocket
