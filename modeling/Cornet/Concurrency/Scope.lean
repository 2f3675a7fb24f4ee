import Cornet.Machinery.Run
import Cornet.Machinery.Family
import Cornet.Concurrency.Expected

/-!
# Concurrency/Scope — structured concurrency (`include/cornet/concurrency/scope.h`)

    parent ──await──▸ runner :  body  ──▸  join  ──▸  spawn(continuation)  ──▸ parent
                                 └─▸ children ─▸ children of children ⋯

`task_scope` runs its body in a detached runner, waits until the count of active children is zero,
and then schedules the awaiting coroutine by the handle it was given at the start.  That handle is
raw: nobody tells the runner when the awaiting coroutine is destroyed.  Children are names; the
ready queue holds the runner or the parent, and the scheduler takes them when it comes to them.

`failures`, `blame`, `resumes` and `seen` are for the reader only.
-/

namespace Cornet.TaskScope

/-- The awaiting coroutine; `gone` is destroyed while it was suspended. -/
inductive Parent
  | fresh | suspended | resumed | gone
  deriving DecidableEq, Repr

/-- Where `scope_runner` is: `woken` is on its way through the ready queue. -/
inductive Runner
  | none | scheduled | body | joining | woken | done
  deriving DecidableEq, Repr

inductive Child
  | unborn | scheduled | running | done
  deriving DecidableEq, Repr

instance : Inhabited Child := ⟨.unborn⟩

def Child.live : Child → ℕ
  | .scheduled | .running => 1
  | .unborn | .done => 0

/-- `scope_t`, with everybody who works on it. -/
structure Scope (κ : Type*) where
  cancelled : Bool := false
  activeCount : ℤ := 0
  /-- whether `waiter_` is set; it is the runner -/
  waiter : Bool := false
  firstError : Option Error := .none
  parent : Parent := .fresh
  runner : Runner := .none
  children : Family κ Child := {}
  /-- the parent's handle is in the ready queue -/
  continuation : Bool := false
  /-- Who failed, in that order; `none` is the body. -/
  failures : List (Option κ) := []
  /-- Who recorded the error and triggered the canceler. -/
  blame : Option (Option κ) := .none
  /-- How often the parent's handle was resumed. -/
  resumes : ℕ := 0
  /-- What the parent got. -/
  seen : Option (Except Error Unit) := .none

variable {κ : Type*} [DecidableEq κ]

namespace Scope

section

omit [DecidableEq κ]

variable (s : Scope κ)

/-- `record_failure`. -/
def recordFailure (who : Option κ) : Scope κ :=
  let s := { s with failures := s.failures ++ [who] }
  if s.firstError.isSome then s
  else { s with firstError := some .exception, cancelled := true, blame := some who }

/-- A runner's `try` block is left. -/
def leave (who : Option κ) (threw : Bool) : Scope κ := if threw then s.recordFailure who else s

/-- `scope_t::as_expected`. -/
def asExpected : Except Error Unit :=
  match s.firstError with
  | some e => .error e
  | .none => .ok ()

/-- `on_child_done`. -/
def onChildDone : Scope κ :=
  let s := { s with activeCount := s.activeCount - 1 }
  if s.activeCount = 0 ∧ s.waiter then { s with runner := .woken, waiter := false } else s

/-- The end of `scope_runner`: the parent's handle goes to the ready queue. -/
def finish : Scope κ := { s with runner := .done, continuation := true }

/-- `co_await task_scope(…)`. -/
def await : Scope κ := { s with parent := .suspended, runner := .scheduled }

/-- The body is left, and `scope_join_awaiter` is awaited. -/
def bodyEnd (threw : Bool) : Scope κ :=
  let s := s.leave .none threw
  if s.activeCount = 0 then s.finish else { s with runner := .joining, waiter := true }

/-- The scheduler resumes the parent's handle. -/
def resume : Scope κ :=
  let s := { s with continuation := false, resumes := s.resumes + 1 }
  if s.parent = .suspended then { s with parent := .resumed, seen := some s.asExpected } else s

end

variable (s : Scope κ)

/-- `scope.spawn`. -/
def spawn (c : κ) : Scope κ :=
  { s with activeCount := s.activeCount + 1, children := s.children.set c .scheduled }

/-- The scoped runner of a child ends. -/
def childEnd (c : κ) (threw : Bool) : Scope κ :=
  { s.leave (some c) threw with children := s.children.set c .done }.onChildDone

end Scope

inductive Act (κ : Type*)
  | await
  | start
  | spawn (who : Option κ) (c : κ)
  | startChild (c : κ)
  | childEnd (c : κ) (threw : Bool)
  | bodyEnd (threw : Bool)
  | join
  | resume
  | destroy
  | cancel
  deriving DecidableEq, Repr

/-- Who spawns is at work: the body or a child. -/
def Scope.AtWork (s : Scope κ) : Option κ → Prop
  | .none => s.runner = .body
  | some c => s.children c = .running

instance (s : Scope κ) (who : Option κ) : Decidable (s.AtWork who) := by
  cases who <;> simp only [Scope.AtWork] <;> infer_instance

/-- One step. -/
def step (s : Scope κ) : Act κ → Option (Scope κ)
  | .await => if s.parent = .fresh then some s.await else .none
  | .start => if s.runner = .scheduled then some { s with runner := .body } else .none
  | .spawn who c => if s.AtWork who ∧ s.children c = .unborn then some (s.spawn c) else .none
  | .startChild c =>
    if s.children c = .scheduled then some { s with children := s.children.set c .running }
      else .none
  | .childEnd c threw => if s.children c = .running then some (s.childEnd c threw) else .none
  | .bodyEnd threw => if s.runner = .body then some (s.bodyEnd threw) else .none
  | .join => if s.runner = .woken then some s.finish else .none
  | .resume => if s.continuation then some s.resume else .none
  | .destroy => if s.parent = .suspended then some { s with parent := .gone } else .none
  | .cancel => some { s with cancelled := true }

end Cornet.TaskScope
