import Mathlib.Tactic

/-!
# Concurrency/Expected — errors (`include/cornet/base/expected.h`)

    expected<T>  =  Except Error T

An error is a code in a domain.  The domain says whether there is an error at all; a code may be
zero in any of them.
-/

namespace Cornet

/-- `error_domain`; modules outside of the repository are given numbers. -/
inductive ErrorDomain
  | none | system | resolve | internal | exception | http | tls | websocket
  | external (i : ℕ)
  deriving DecidableEq, Repr

/-- `error_t`. -/
structure Error where
  code : ℤ := 0
  domain : ErrorDomain := .none
  deriving DecidableEq, Repr, Inhabited

def eFault : ℤ := 14
def eBusy : ℤ := 16
def eCanceled : ℤ := 125
def eOwnerDead : ℤ := 130

/-- What an exception is turned into. -/
def Error.exception : Error := ⟨eFault, .exception⟩

end Cornet
