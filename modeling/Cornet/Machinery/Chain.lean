import Mathlib.Tactic

/-!
# Machinery/Chain — singly linked lists threaded through a store

    x ──▸ b₁ ──link──▸ b₂ ──link──▸ ⋯ ──link──▸ bₙ ──link──▸ ∅

`Chain ref link x l` says that following `link` from the pointer `x` visits exactly the nodes `l`
and ends.  Pointers live in their own type `π`, into which `ref` embeds the nodes: a store may hold
pointers to other things in the same field.
-/

namespace Cornet

variable {β π : Type*} {ref : β → π} {link : β → Option π} {x : Option π} {l : List β} {b : β}

/-- The list of nodes a pointer leads to. -/
def Chain (ref : β → π) (link : β → Option π) : Option π → List β → Prop
  | x, [] => x = none
  | x, b :: l => x = some (ref b) ∧ Chain ref link (link b) l

@[simp] theorem chain_nil : Chain ref link x [] ↔ x = none := Iff.rfl

/-- A chain that starts somewhere is that node and a chain from its link. -/
theorem Chain.eq_cons (href : Function.Injective ref) (h : Chain ref link (some (ref b)) l) :
    ∃ l', l = b :: l' ∧ Chain ref link (link b) l' := by
  cases l with
  | nil => exact absurd h (by simp)
  | cons c l =>
    obtain rfl : b = c := href (Option.some.inj h.1)
    exact ⟨l, rfl, h.2⟩

variable [DecidableEq β]

/-- **The frame rule**: a write to a node off the chain leaves the chain alone. -/
theorem Chain.update (v : Option π) : ∀ {l : List β} {x : Option π}, b ∉ l →
    Chain ref link x l → Chain ref (Function.update link b v) x l
  | [], _, _, h => h
  | c :: l, x, hb, h => by
      obtain ⟨hbc, hbl⟩ : b ≠ c ∧ b ∉ l := by simpa using hb
      refine ⟨h.1, ?_⟩
      rw [Function.update_of_ne (Ne.symm hbc)]
      exact Chain.update v hbl h.2

end Cornet
