import Cornet.Http.Intake
import Cornet.Http.Lexing

/-!
# Http/Reading — what one read brings

    room = 0 ─▸ HeaderTooLarge        inbox = l ++ … ─▸ l behind the bytes already there        nothing ─▸ 0

`Filled` says how a `fill` can go, whatever the peer and the socket do.
-/

namespace Cornet.Http

namespace Parser

variable {p : Parser}

theorem limits_pump : p.pump.1.limits = p.limits ∧ p.pump.1.response = p.response := by
  rw [pump]
  split
  · exact ⟨rfl, rfl⟩
  · split
    · exact ⟨rfl, rfl⟩
    · split
      · have hsteady := steady_classify (kept_lex p.primed p.feedPos p.feedLen p.input)
        exact ⟨hsteady.limits_eq, hsteady.response_eq⟩
      · exact ⟨rfl, rfl⟩

end Parser

namespace Intake


/-- How a `fill` goes. -/
inductive Filled (s : Intake) : Intake × Except ReadError ℕ → Prop
  | full : s.head.room = 0 → Filled s (s, .error .headerTooLarge)
  | fails {net : Net} {errno : ℕ} :
      s.net.recvs 0 = .fails errno ∨ s.net.inbox = [] ∧ s.net.fin = false →
      net.inbox = s.net.inbox → net.fin = s.net.fin →
        Filled s ({ s with net := net }, .error (.sys errno))
  | eof {net : Net} :
      s.net.inbox = [] → s.net.fin = true → net.inbox = [] → net.fin = true →
      Filled s ({ s with net := net }, .ok 0)
  | got {net : Net} {l : List Byte} :
      l ≠ [] → s.net.inbox = l ++ net.inbox → l.length ≤ s.head.room → net.fin = s.net.fin →
      net.recvs = (fun i => s.net.recvs (i + 1)) →
      Filled s ({ s with net := net, responded := true }.setHead (s.head.put l), .ok l.length)

theorem filled_fill (s : Intake) : Filled s s.fill := by
  rw [fill]
  by_cases hroom : s.head.room = 0
  · rw [if_pos hroom]
    exact .full hroom
  · rw [if_neg hroom, Net.recv]
    cases hrecv : s.net.recvs 0 with
    | fails e => exact .fails (.inl hrecv) rfl rfl
    | upTo n =>
      by_cases hinbox : s.net.inbox = []
      · dsimp only
        rw [if_pos hinbox]
        by_cases hfin : s.net.fin = true
        · rw [if_pos hfin]
          exact .eof hinbox hfin hinbox hfin
        · rw [if_neg hfin]
          exact .fails (.inr ⟨hinbox, by simpa using hfin⟩) rfl rfl
      · dsimp only
        rw [if_neg hinbox]
        have hne : s.net.inbox.take (min (n + 1) s.head.room) ≠ [] := by
          intro hnil
          rcases List.take_eq_nil_iff.mp hnil with h | h
          · omega
          · exact hinbox h
        dsimp only
        rw [if_neg hne]
        refine .got hne (List.take_append_drop _ _).symm ?_ rfl rfl
        rw [List.length_take]
        omega

theorem pendingBody_eq_nil {p : Parser} (h : p.runLen = 0) : p.pendingBody = [] :=
  Mem.read_eq_nil.mpr h

end Intake

end Cornet.Http
