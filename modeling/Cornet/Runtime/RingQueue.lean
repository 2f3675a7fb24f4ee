import Cornet.Machinery.Run

/-!
# Runtime/RingQueue — the run queue is a queue (`ring_queue_t` in `include/cornet/scheduling/scheduler.h`)

    index    head  head+1  ⋯  tail-1        64 bits, never reduced
    slot     index & mask                   the capacity is a power of two, and so divides 2⁶⁴

`head` and `tail` run on through growth and around 2⁶⁴; only the mask changes.  A slot that was
popped keeps its handle.
-/

namespace Cornet.Runtime

open List

variable {η : Type*}

/-- `ring_queue_t`; the null handle is `none`. -/
structure RingQueue (η : Type*) where
  buf : List (Option η) := List.replicate 1024 none
  mask : UInt64 := 1023
  head : UInt64 := 0
  tail : UInt64 := 0

namespace RingQueue

/-- `max_size()` of a vector of handles; a longer one throws. -/
def kMaxSize : ℕ := 2 ^ 60 - 1

section Operations

variable (q : RingQueue η)

/-- Where an index is kept. -/
def slot (i : UInt64) : ℕ := (i &&& q.mask).toNat

/-- `scheduler_t::ring_queue_t::size`. -/
def size : UInt64 := q.tail - q.head

/-- `scheduler_t::ring_queue_t::empty`. -/
def empty : Bool := q.head == q.tail

/-- `scheduler_t::ring_queue_t::front`. -/
def front : Option η := (q.buf[q.slot q.head]?).join

/-- `grow`: from `head` until the index is `tail`. -/
def grow : Option (RingQueue η) :=
  let newCap := 2 * q.buf.length
  let r := { q with buf := List.replicate newCap none, mask := UInt64.ofNat (newCap - 1) }
  if kMaxSize < newCap then none
  else some { r with buf := (List.range q.size.toNat).foldl (fun buf k =>
    buf.set (r.slot (q.head + UInt64.ofNat k)) (q.buf[q.slot (q.head + UInt64.ofNat k)]?).join) r.buf }

/-- `scheduler_t::ring_queue_t::push`. -/
def push (h : η) : Option (RingQueue η) :=
  (if q.size = UInt64.ofNat q.buf.length then q.grow else some q).map fun q =>
    { q with buf := q.buf.set (q.slot q.tail) (some h), tail := q.tail + 1 }

/-- `scheduler_t::ring_queue_t::pop`. -/
def pop : RingQueue η := { q with head := q.head + 1 }

end Operations

/-- What the scheduler does with its queue. -/
inductive Op (η : Type*)
  | push (h : η)
  | pop

/-- One call; `pop` is for a queue that is not empty. -/
def step (q : RingQueue η) : Op η → Option (RingQueue η)
  | .push h => q.push h
  | .pop => if q.empty then none else some q.pop

/-- What the calls do to a queue. -/
def Op.apply (l : List η) : Op η → List η
  | .push h => l ++ [h]
  | .pop => l.tail

/-! ## Slots -/

variable {q r : RingQueue η} {l : List η} {e : ℕ}

/-- **A slot is the index modulo the capacity**, whether or not the index has gone around. -/
theorem slot_add (he : e ≤ 64) (hmask : q.mask.toNat = 2 ^ e - 1) (i : UInt64) (k : ℕ) :
    q.slot (i + UInt64.ofNat k) = (i.toNat + k) % 2 ^ e := by
  rw [slot, UInt64.toNat_and, hmask, Nat.and_two_pow_sub_one_eq_mod, UInt64.toNat_add,
    UInt64.toNat_ofNat',
    Nat.mod_mod_of_dvd _ (pow_dvd_pow 2 he), Nat.add_mod, Nat.mod_mod_of_dvd _ (pow_dvd_pow 2 he),
      ← Nat.add_mod]

theorem slot_inj (he : e ≤ 64) (hmask : q.mask.toNat = 2 ^ e - 1) {i : UInt64} {j k : ℕ}
    (hj : j < 2 ^ e)
    (hk : k < 2 ^ e) (h : q.slot (i + UInt64.ofNat j) = q.slot (i + UInt64.ofNat k)) : j = k := by
  rw [slot_add he hmask, slot_add he hmask] at h
  exact Nat.ModEq.eq_of_lt_of_lt (Nat.ModEq.add_left_cancel' i.toNat h) hj hk

/-- Writes to different places are all there in the end. -/
theorem getElem?_foldl_set {α : Type*} (p : ℕ → ℕ) (v : ℕ → α) (b : List α) : ∀ n,
    (∀ j k, j < n → k < n → p j = p k → j = k) → (∀ k < n, p k < b.length) →
    ((List.range n).foldl (fun b k => b.set (p k) (v k)) b).length = b.length ∧
      ∀ k < n, ((List.range n).foldl (fun b k => b.set (p k) (v k)) b)[p k]? = some (v k)
  | 0, _, _ => ⟨rfl, fun k hk => absurd hk (Nat.not_lt_zero k)⟩
  | n + 1, hinj, hlt => by
      obtain ⟨hlen, hget⟩ :=
        getElem?_foldl_set p v b n (fun j k hj hk => hinj j k (by omega) (by omega))
        fun k hk => hlt k (by omega)
      rw [range_succ, foldl_append]
      refine ⟨(length_set ..).trans hlen, fun k hk => ?_⟩
      rw [foldl_cons, foldl_nil]
      rcases Nat.lt_succ_iff_lt_or_eq.mp hk with hk' | rfl
      · rw [getElem?_set_ne fun heq => absurd (hinj n k (by omega) hk heq) (by omega)]
        exact hget k hk'
      · exact getElem?_set_self (hlen ▸ hlt k hk)

/-! ## The queue -/

/-- The queue holds these handles, the oldest first, in `2 ^ e` slots. -/
structure Holds (q : RingQueue η) (l : List η) (e : ℕ) : Prop where
  le : e ≤ 59
  length_buf : q.buf.length = 2 ^ e
  mask : q.mask.toNat = 2 ^ e - 1
  length_le : l.length ≤ 2 ^ e
  tail : q.tail = q.head + UInt64.ofNat l.length
  get : ∀ k < l.length, q.buf[q.slot (q.head + UInt64.ofNat k)]? = some l[k]?

theorem holds_init : Holds ({} : RingQueue η) [] 10 where
  le := by decide
  length_buf := length_replicate
  mask := rfl
  length_le := Nat.zero_le _
  tail := rfl
  get k hk := absurd hk (Nat.not_lt_zero k)

theorem Holds.size (h : Holds q l e) : q.size = UInt64.ofNat l.length ∧
    q.size.toNat = l.length := by
  have hsize : q.size = UInt64.ofNat l.length := by
    rw [RingQueue.size, h.tail, UInt64.add_comm, UInt64.add_sub_cancel]
  have hlt : l.length < 2 ^ 64 :=
    h.length_le.trans_lt (Nat.pow_lt_pow_right (by decide) (h.le.trans_lt (by decide)))
  exact ⟨hsize, by rw [hsize, UInt64.toNat_ofNat', Nat.mod_eq_of_lt hlt]⟩

theorem Holds.grow (h : Holds q l e) (hr : q.grow = some r) : Holds r l (e + 1) := by
  rw [RingQueue.grow, h.length_buf, ← pow_succ', h.size.2] at hr
  split_ifs at hr with hmax
  obtain rfl := Option.some.inj hr
  have hle : e + 1 ≤ 59 := by
    by_contra hlt
    obtain rfl : e = 59 := by have := h.le; omega
    exact hmax (by decide)
  have hmask : (UInt64.ofNat (2 ^ (e + 1) - 1)).toNat = 2 ^ (e + 1) - 1 := by
    rw [UInt64.toNat_ofNat', Nat.mod_eq_of_lt]
    exact (Nat.sub_le _ _).trans_lt (Nat.pow_lt_pow_right (by decide) (by omega))
  have hlen : l.length ≤ 2 ^ (e + 1) :=
    h.length_le.trans (Nat.pow_le_pow_right (by decide) (Nat.le_succ e))
  set s : RingQueue η :=
    { q with buf := List.replicate (2 ^ (e + 1)) none, mask := UInt64.ofNat (2 ^ (e + 1) - 1) }
    with hs
  obtain ⟨hlength, hget⟩ := getElem?_foldl_set (fun k => s.slot (q.head + UInt64.ofNat k))
    (fun k => (q.buf[q.slot (q.head + UInt64.ofNat k)]?).join) s.buf l.length
    (fun j k hj hk => slot_inj (q := s) (by omega) hmask (hj.trans_le hlen) (hk.trans_le hlen))
      fun k _ => by
      rw [slot_add (q := s) (by omega) hmask, length_replicate]
      exact Nat.mod_lt _ (Nat.two_pow_pos _)
  exact ⟨hle, hlength.trans length_replicate, hmask, hlen, h.tail, fun k hk =>
    (hget k hk).trans (by rw [h.get k hk]; rfl)⟩

/-- Room for one more. -/
theorem Holds.pushed (h : Holds q l e) (hroom : l.length < 2 ^ e) (x : η) :
    Holds { q with buf := q.buf.set (q.slot q.tail) (some x), tail := q.tail + 1 }
      (l ++ [x]) e where
  le := h.le
  length_buf := (length_set ..).trans h.length_buf
  mask := h.mask
  length_le := by rw [length_append]; exact hroom
  tail := by
    rw [h.tail, length_append, length_singleton, UInt64.ofNat_add, UInt64.add_assoc]
    rfl
  get k hk := by
    rw [length_append, length_singleton] at hk
    have he : e ≤ 64 := h.le.trans (by decide)
    rw [h.tail]
    rcases Nat.lt_succ_iff_lt_or_eq.mp hk with hk | rfl
    · rw [getElem?_append_left hk]
      refine Eq.trans (getElem?_set_ne fun heq => ?_) (h.get k hk)
      exact hk.ne' (slot_inj he h.mask hroom (hk.trans hroom) heq)
    · rw [getElem?_concat_length]
      refine getElem?_set_self ?_
      rw [slot_add he h.mask, h.length_buf]
      exact Nat.mod_lt _ (Nat.two_pow_pos e)

theorem Holds.push (h : Holds q l e) {x : η} (hr : q.push x = some r) : ∃ e',
    Holds r (l ++ [x]) e' := by
  obtain ⟨s, hs, rfl⟩ := Option.map_eq_some_iff.mp hr
  split_ifs at hs with hfull
  · have hsize := h.grow hs
    exact ⟨e + 1, hsize.pushed (h.length_le.trans_lt
      (Nat.pow_lt_pow_right (by decide) (Nat.lt_succ_self e))) x⟩
  · obtain rfl := Option.some.inj hs
    refine ⟨e, h.pushed (lt_of_le_of_ne h.length_le fun heq => hfull ?_) x⟩
    rw [h.size.1, h.length_buf, heq]

theorem Holds.pop (h : Holds q l e) (hne : l ≠ []) : Holds q.pop l.tail e := by
  obtain ⟨x, l, rfl⟩ := exists_cons_of_ne_nil hne
  have hnext (k : ℕ) : q.head + 1 + UInt64.ofNat k = q.head + UInt64.ofNat (k + 1) := by
    rw [UInt64.add_assoc, UInt64.add_comm 1, UInt64.ofNat_add]
    rfl
  refine ⟨h.le, h.length_buf, h.mask, (Nat.le_succ _).trans h.length_le, ?_, fun k hk => ?_⟩
  · exact h.tail.trans (hnext l.length).symm
  · change q.buf[q.slot (q.head + 1 + UInt64.ofNat k)]? = _
    rw [hnext]
    exact h.get (k + 1) (Nat.succ_lt_succ hk)

theorem Holds.empty_iff (h : Holds q l e) : q.empty = true ↔ l = [] := by
  rw [empty, beq_iff_eq, eq_comm, ← length_eq_zero_iff, ← h.size.2, RingQueue.size,
    ← UInt64.toNat_zero, UInt64.toNat_inj]
  exact ⟨fun heq => by
    rw [heq, UInt64.sub_self], fun hsub =>
    by rw [← UInt64.sub_add_cancel q.tail q.head, hsub, UInt64.zero_add]⟩

theorem Holds.front {x : η} (h : Holds q (x :: l) e) : q.front = some x := by
  have hget := h.get 0 (Nat.succ_pos _)
  rw [show q.head + UInt64.ofNat 0 = q.head from UInt64.add_zero _] at hget
  rw [RingQueue.front, hget]
  rfl

theorem Holds.step (h : Holds q l e) {a : Op η} (hr : q.step a = some r) : ∃ e',
    Holds r (a.apply l) e' := by
  cases a with
  | push x => exact h.push hr
  | pop =>
    rw [RingQueue.step] at hr
    split_ifs at hr with hempty
    obtain rfl := Option.some.inj hr
    exact ⟨e, h.pop fun hnil => hempty (h.empty_iff.mpr hnil)⟩

/-- **The ring is a queue.**  After any calls, `size` counts what was pushed and not popped and
`front` is the oldest of it; a push throws only where no vector could be twice as long. -/
theorem ring_is_fifo {as : List (Op η)} (h : Run step (fun _ _ => True) ({} : RingQueue η) as q) :
    q.size.toNat = (as.foldl Op.apply []).length ∧ (q.empty = true ↔ as.foldl Op.apply [] = []) ∧
      (as.foldl Op.apply [] ≠ [] → q.front = (as.foldl Op.apply []).head?) ∧
      ∀ x, q.push x = none → (as.foldl Op.apply []).length = 2 ^ 59 := by
  have hinv : ∃ e, Holds q (as.foldl Op.apply []) e := by
    induction h with
    | nil => exact ⟨10, holds_init⟩
    | snoc _ _ hst ih =>
      rw [foldl_append]
      exact ih.elim fun e he => he.step hst
  obtain ⟨e, he⟩ := hinv
  refine ⟨he.size.2, he.empty_iff, fun hne => ?_, fun x hx => ?_⟩
  · have hget := he.get 0 (length_pos_iff.mpr hne)
    rw [show q.head + UInt64.ofNat 0 = q.head from UInt64.add_zero _] at hget
    rw [front, hget, head?_eq_getElem?]
    rfl
  · have hgrow := Option.map_eq_none_iff.mp hx
    split_ifs at hgrow with hfull
    have hlen : (as.foldl Op.apply []).length = 2 ^ e := by
      rw [← he.size.2, hfull, he.length_buf, UInt64.toNat_ofNat', Nat.mod_eq_of_lt]
      exact Nat.pow_lt_pow_right (by decide) (he.le.trans_lt (by decide))
    rw [hlen]
    by_contra hne
    have hlt : 2 * q.buf.length ≤ kMaxSize := by
      have hpow : 2 ^ (e + 1) ≤ 2 ^ 59 := Nat.pow_le_pow_right (by decide) (by
        have := he.le
        have : e ≠ 59 := fun h59 => hne (by rw [h59])
        omega)
      rw [he.length_buf, ← pow_succ']
      exact hpow.trans (by decide)
    rw [grow, if_neg (not_lt.mpr hlt)] at hgrow
    cases hgrow

theorem ring_is_fifo_three : ∃ q : RingQueue ℕ, Run step (fun _ _ => True) {}
    [.push 3, .push 4, .pop] q ∧
    q.front = some 4 ∧ q.size.toNat = 1 :=
  Run.exists_and_of_mem (fun h => (ring_is_fifo h).2.2.1 (by decide)) (by decide +kernel)

end RingQueue

end Cornet.Runtime
