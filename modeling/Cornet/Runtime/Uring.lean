import Mathlib.Tactic

/-!
# Runtime/Uring — acquiring several submission entries at once (`src/uring.cc`)

    consumed        handed, not consumed      acquired, not handed          free
    ───────── head ───────────────────── handed ─────────────────── tail ───────── head + entries

`io_uring_get_sqe` moves `tail`, `io_uring_submit` moves `handed` up to it, and the kernel moves
`head`.  `get_sqes` promises its caller a batch of untouched entries that leaves in one submission.
It forces a submission when the ring fills up half way, and what it has acquired by then leaves with
it: `getSqes_batched_iff` says exactly which ring states are spared.
-/

namespace Cornet.Uring

open List

/-- The submission ring, at absolute positions.  `prepared p` tells whether the entry at `p` has
been filled in since it was last acquired. -/
structure Ring where
  entries : ℕ
  head : ℕ
  handed : ℕ
  tail : ℕ
  prepared : ℕ → Bool
  head_le_handed : head ≤ handed
  handed_le_tail : handed ≤ tail
  tail_le : tail ≤ head + entries

namespace Ring

variable (r : Ring)

/-- Free entries. -/
def room : ℕ := r.head + r.entries - r.tail

/-- The entries the next submission hands over. -/
def ready : List ℕ := List.range' r.handed (r.tail - r.handed)

/-- `io_uring_get_sqe`: null on a full ring, else the entry at the tail, with whatever its last user
left in it. -/
def getSqe : Option (ℕ × Ring) :=
  if h : r.tail < r.head + r.entries then
    some (r.tail, { r with
      tail := r.tail + 1
      prepared := Function.update r.prepared r.tail false
      handed_le_tail := Nat.le_succ_of_le r.handed_le_tail
      tail_le := h })
  else none

/-- What a submission shows the kernel: each entry with whether it had been prepared. -/
def batch : List (ℕ × Bool) := r.ready.map fun p => (p, r.prepared p)

/-- `io_uring_submit`, after which the kernel has consumed `k` more entries (as far as there are
any). -/
def submit (k : ℕ) : Ring :=
  { r with
    handed := r.tail
    head := min (r.head + k) r.tail
    head_le_handed := Nat.min_le_right _ _
    handed_le_tail := Nat.le_refl _
    tail_le := by
      have := r.tail_le
      have := r.head_le_handed.trans r.handed_le_tail
      omega }

/-- `io_uring_prep_nop` and `io_uring_sqe_set_data`: the entry now holds something harmless. -/
def prepNop (p : ℕ) : Ring := { r with prepared := Function.update r.prepared p true }

end Ring

/-- The only error of the acquire calls. -/
inductive Errno
  | ENOBUFS
  deriving DecidableEq, Repr

/-- What one acquire call did: its answer, the ring it leaves, the batches its forced submissions
handed over, and what they added to the tracker's in-flight count. -/
structure Acquired where
  answer : Except Errno (List ℕ)
  ring : Ring
  batches : List (List (ℕ × Bool))
  inflight : ℕ

/-- The loop of `get_sqes`, with `m` entries to go at index `i`; `kernel i` is how many entries the
kernel consumes in the submission forced at index `i`. -/
def getSqesFrom (kernel : ℕ → ℕ) :
    ℕ → ℕ → List ℕ → Ring → List (List (ℕ × Bool)) → ℕ → Acquired
  | 0, _, out, r, bs, io => ⟨.ok out, r, bs, io⟩
  | m + 1, i, out, r, bs, io =>
    match r.getSqe with
    | some (p, r') => getSqesFrom kernel m (i + 1) (out ++ [p]) r' bs io
    | none =>
      let r' := r.submit (kernel i)
      let io' := io + (r'.head - r.head)
      match r'.getSqe with
      | some (p, r'') => getSqesFrom kernel m (i + 1) (out ++ [p]) r'' (bs ++ [r.batch]) io'
      -- the entries already grabbed cannot go back: they are made NOPs and left for a later submit
      | none => ⟨.error .ENOBUFS, out.foldl Ring.prepNop r', bs ++ [r.batch], io'⟩

/-- `uring_t::get_sqes`. -/
def getSqes (kernel : ℕ → ℕ) (r : Ring) (n : ℕ) : Acquired := getSqesFrom kernel n 0 [] r [] 0

/-- What `get_sqes` promises: on success all `n` entries wait for one and the same submission, and
no entry acquired by the call has been shown to the kernel before it was prepared. -/
structure Batched (r : Ring) (n : ℕ) (a : Acquired) : Prop where
  together : ∀ out, a.answer = .ok out → out.length = n ∧ ∀ p ∈ out, p ∈ a.ring.ready
  fresh : ∀ b ∈ a.batches, ∀ p, r.tail ≤ p → (p, false) ∉ b

/-! ## One acquisition -/

namespace Ring

variable {r : Ring}

theorem getSqe_eq_none (h : r.room = 0) : r.getSqe = none := by
  have := r.tail_le
  exact dif_neg (by unfold room at h; omega)

/-- An entry comes off a ring with room: it is the one at the tail, and it is stale. -/
theorem getSqe_eq_some (h : r.room ≠ 0) : ∃ r', r.getSqe = some (r.tail, r') ∧
    r'.handed = r.handed ∧ r'.tail = r.tail + 1 ∧ r'.room = r.room - 1 ∧
      r'.prepared = Function.update r.prepared r.tail false := by
  have hlt : r.tail < r.head + r.entries := by unfold room at h; omega
  exact ⟨_, dif_pos hlt, rfl, rfl, by simp only [room]; omega, rfl⟩

theorem mem_ready {p : ℕ} : p ∈ r.ready ↔ r.handed ≤ p ∧ p < r.tail := by
  have := r.handed_le_tail
  rw [ready, mem_range'_1]
  omega

theorem mem_batch {p : ℕ} {b : Bool} : (p, b) ∈ r.batch ↔ p ∈ r.ready ∧ r.prepared p = b := by
  simp only [batch, mem_map, Prod.mk.injEq]
  constructor
  · rintro ⟨q, hq, rfl, rfl⟩
    exact ⟨hq, rfl⟩
  · rintro ⟨hp, rfl⟩
    exact ⟨p, hp, rfl, rfl⟩

/-- On a full ring a submission frees exactly what the kernel consumes. -/
theorem room_submit (h : r.room = 0) (k : ℕ) : (r.submit k).room = min k r.entries := by
  have := r.tail_le
  have := r.head_le_handed.trans r.handed_le_tail
  simp only [room, submit] at h ⊢
  omega

end Ring

/-! ## The acquire loop -/

section Loop

variable (kernel : ℕ → ℕ)

/-- The loop only ever adds to the batches it has already handed over. -/
theorem mem_batches_of_mem : ∀ (m i : ℕ) (out : List ℕ) (r : Ring)
    (bs : List (List (ℕ × Bool))) (io : ℕ) {b : List (ℕ × Bool)},
    b ∈ bs → b ∈ (getSqesFrom kernel m i out r bs io).batches
  | 0, _, _, _, _, _, _, hb => hb
  | m + 1, i, out, r, bs, io, b, hb => by
      have hb' : b ∈ bs ++ [r.batch] := mem_append_left _ hb
      rw [getSqesFrom]
      split
      · exact mem_batches_of_mem m _ _ _ _ _ hb
      · dsimp only
        split
        · exact mem_batches_of_mem m _ _ _ _ _ hb'
        · exact hb'

/-- **With room for all of them the loop submits nothing**: it takes the next `m` positions. -/
theorem getSqesFrom_of_room : ∀ (m i : ℕ) (out : List ℕ) (r : Ring)
    (bs : List (List (ℕ × Bool))) (io : ℕ), m ≤ r.room →
    ∃ r', getSqesFrom kernel m i out r bs io = ⟨.ok (out ++ List.range' r.tail m), r', bs, io⟩ ∧
      r'.handed = r.handed ∧ r'.tail = r.tail + m
  | 0, _, _, r, _, _, _ => ⟨r, by simp [getSqesFrom], rfl, rfl⟩
  | m + 1, i, out, r, bs, io, hm => by
      obtain ⟨r₁, hget, hh, ht, hroom, -⟩ := Ring.getSqe_eq_some (r := r) (by omega)
      obtain ⟨r₂, hrec, hh₂, ht₂⟩ :=
        getSqesFrom_of_room m (i + 1) (out ++ [r.tail]) r₁ bs io (by omega)
      refine ⟨r₂, ?_, hh₂.trans hh, by omega⟩
      rw [getSqesFrom, hget]
      dsimp only
      rw [hrec, ht, List.range'_succ, append_assoc, singleton_append]

/-- **Without room for all of them a stale entry leaks**: an entry that is acquired and not yet
prepared when the ring fills up is handed over by the forced submission. -/
theorem stale_leaks : ∀ (m i : ℕ) (out : List ℕ) (r : Ring) (bs : List (List (ℕ × Bool)))
    (io : ℕ) {p : ℕ}, r.room < m → p ∈ r.ready → r.prepared p = false →
    ∃ b ∈ (getSqesFrom kernel m i out r bs io).batches, (p, false) ∈ b
  | 0, _, _, _, _, _, _, hm, _, _ => absurd hm (by omega)
  | m + 1, i, out, r, bs, io, p, hm, hp, hpre => by
      by_cases hroom : r.room = 0
      · -- the ring is full: this iteration is the one that submits
        have hleak : (p, false) ∈ r.batch := Ring.mem_batch.mpr ⟨hp, hpre⟩
        have hmem : r.batch ∈ bs ++ [r.batch] := by simp
        rw [getSqesFrom, Ring.getSqe_eq_none hroom]
        dsimp only
        split
        · exact ⟨_, mem_batches_of_mem kernel m _ _ _ _ _ hmem, hleak⟩
        · exact ⟨_, hmem, hleak⟩
      · obtain ⟨r₁, hget, hh, ht, hr, hpr⟩ := Ring.getSqe_eq_some (r := r) hroom
        obtain ⟨hlo, hhi⟩ := Ring.mem_ready.mp hp
        rw [getSqesFrom, hget]
        refine stale_leaks m _ _ r₁ _ _ (by omega) (Ring.mem_ready.mpr (by omega)) ?_
        rw [hpr, Function.update_of_ne (by omega), hpre]

end Loop

/-! ## What `get_sqes` delivers -/

section GetSqes

variable {kernel : ℕ → ℕ} {r : Ring} {n : ℕ}

theorem batched_of_room (h : n ≤ r.room) : Batched r n (getSqes kernel r n) := by
  obtain ⟨r', heq, hh, ht⟩ := getSqesFrom_of_room kernel n 0 [] r [] 0 h
  have := r.handed_le_tail
  rw [getSqes, heq]
  refine ⟨fun out ho => ?_, by simp⟩
  obtain rfl : [] ++ List.range' r.tail n = out := Except.ok.inj ho
  refine ⟨by simp, fun p hp => Ring.mem_ready.mpr ?_⟩
  simp only [nil_append, mem_range'_1] at hp
  change r'.handed ≤ p ∧ p < r'.tail
  omega

/-- The first iteration on a full ring: one submission, before anything has been acquired. -/
theorem getSqes_of_full (hroom : r.room = 0) (m : ℕ) :
    getSqes kernel r (m + 1) =
      match (r.submit (kernel 0)).getSqe with
      | some (p, r') =>
        getSqesFrom kernel m 1 [p] r' [r.batch] ((r.submit (kernel 0)).head - r.head)
      | none => ⟨.error .ENOBUFS, r.submit (kernel 0), [r.batch],
          (r.submit (kernel 0)).head - r.head⟩ := by
  rw [getSqes, getSqesFrom, Ring.getSqe_eq_none hroom]
  dsimp only
  split <;> simp

theorem fresh_batch : ∀ b ∈ [r.batch], ∀ p, r.tail ≤ p → (p, false) ∉ b := by
  intro b hb p hp hmem
  obtain rfl := mem_singleton.mp hb
  have := (Ring.mem_ready.mp (Ring.mem_batch.mp hmem).1).2
  omega

/-- A full ring from which the submission frees nothing: the call fails with nothing acquired. -/
theorem batched_of_stuck (hroom : r.room = 0) (hk : kernel 0 = 0) :
    Batched r n (getSqes kernel r n) := by
  cases n with
  | zero => exact batched_of_room (Nat.zero_le _)
  | succ m =>
    rw [getSqes_of_full hroom, Ring.getSqe_eq_none (by rw [Ring.room_submit hroom, hk]; simp)]
    refine ⟨fun out ho => ?_, fresh_batch⟩
    cases ho

/-- A full ring from which the submission frees enough: everything is acquired after it. -/
theorem batched_of_drained (hroom : r.room = 0) (hn : n ≤ r.entries) (hk : n ≤ kernel 0) :
    Batched r n (getSqes kernel r n) := by
  cases n with
  | zero => exact batched_of_room (Nat.zero_le _)
  | succ m =>
    have hfree := Ring.room_submit hroom (kernel 0)
    obtain ⟨r₁, hget, hh, ht, hr, -⟩ := Ring.getSqe_eq_some (r := r.submit (kernel 0)) (by omega)
    obtain ⟨r₂, hrec, hh₂, ht₂⟩ := getSqesFrom_of_room kernel m 1
      [(r.submit (kernel 0)).tail] r₁ [r.batch] ((r.submit (kernel 0)).head - r.head) (by omega)
    have hhanded : (r.submit (kernel 0)).handed = (r.submit (kernel 0)).tail := rfl
    rw [getSqes_of_full hroom, hget]
    dsimp only
    rw [hrec]
    refine ⟨fun out ho => ?_, fresh_batch⟩
    obtain rfl := Except.ok.inj ho
    refine ⟨by simp, fun p hp => Ring.mem_ready.mpr ?_⟩
    simp only [mem_append, mem_singleton, mem_range'_1] at hp
    change r₂.handed ≤ p ∧ p < r₂.tail
    omega

/-- **`get_sqes` keeps its promise exactly when it never submits with an entry in hand**: the ring
has room for all `n`, or it is full and the one submission frees nothing or enough. -/
theorem getSqes_batched_iff (kernel : ℕ → ℕ) (r : Ring) (n : ℕ) (hn : n ≤ r.entries) :
    Batched r n (getSqes kernel r n) ↔
      n ≤ r.room ∨ r.room = 0 ∧ (kernel 0 = 0 ∨ n ≤ kernel 0) := by
  constructor
  · intro h
    by_contra hno
    push Not at hno
    obtain ⟨hlt, hfull⟩ := hno
    obtain ⟨m, rfl⟩ : ∃ m, n = m + 1 := ⟨n - 1, by omega⟩
    by_cases hroom : r.room = 0
    · -- the submission frees some entries but not enough: the first one acquired after it leaks
      obtain ⟨hk₀, hk⟩ := hfull hroom
      have hfree := Ring.room_submit hroom (kernel 0)
      obtain ⟨r₁, hget, hh, ht, hr, hpr⟩ :=
        Ring.getSqe_eq_some (r := r.submit (kernel 0)) (by omega)
      have htail : (r.submit (kernel 0)).tail = r.tail := rfl
      have hhanded : (r.submit (kernel 0)).handed = r.tail := rfl
      obtain ⟨b, hb, hmem⟩ := stale_leaks kernel (p := r.tail) m 1
        [(r.submit (kernel 0)).tail] r₁ [r.batch] ((r.submit (kernel 0)).head - r.head)
        (by omega) (Ring.mem_ready.mpr (by omega)) (by rw [hpr, htail, Function.update_self])
      refine h.fresh b ?_ r.tail le_rfl hmem
      rw [getSqes_of_full hroom, hget]
      exact hb
    · -- the ring has room for some but not all of them: the first one acquired leaks
      obtain ⟨r₁, hget, hh, ht, hr, hpr⟩ := Ring.getSqe_eq_some (r := r) hroom
      have := r.handed_le_tail
      obtain ⟨b, hb, hmem⟩ := stale_leaks kernel (p := r.tail) m 1 [r.tail] r₁ [] 0
        (by omega) (Ring.mem_ready.mpr (by omega)) (by rw [hpr, Function.update_self])
      refine h.fresh b ?_ r.tail le_rfl hmem
      rw [getSqes, getSqesFrom, hget]
      exact hb
  · rintro (h | ⟨hroom, hk | hk⟩)
    · exact batched_of_room h
    · exact batched_of_stuck hroom hk
    · exact batched_of_drained hroom hn hk

/-- A two-entry ring with one prepared entry waiting. -/
def halfFull : Ring :=
  { entries := 2, head := 0, handed := 0, tail := 1, prepared := fun _ => true
    head_le_handed := by decide, handed_le_tail := by decide, tail_le := by decide }

/-- An empty two-entry ring takes an operation and its linked timeout. -/
theorem getSqes_batched_pair :
    Batched { halfFull with tail := 0, handed_le_tail := by decide, tail_le := by decide } 2
      (getSqes (fun _ => 2)
        { halfFull with tail := 0, handed_le_tail := by decide, tail_le := by decide } 2) :=
  (getSqes_batched_iff (fun _ => 2) _ 2 (by decide)).mpr (Or.inl (by decide))

/-- The same pair on the half-full ring: the operation's entry is submitted before it is prepared,
with a kernel that consumes all it is given. -/
theorem getSqes_leaks_half_full :
    2 ≤ halfFull.entries ∧ ¬ Batched halfFull 2 (getSqes (fun _ => 2) halfFull 2) := by
  refine ⟨by decide, fun h => ?_⟩
  exact h.fresh [(0, true), (1, false)] (by decide) 1 (by decide) (by decide)

end GetSqes

end Cornet.Uring
